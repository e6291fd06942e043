/-
Module: Bemtvi.Core.JumpsLaws
Purpose: Runs over the jump list: the pointer stays in the list and the way back leads home; only the
  stash of the first `<C-o>` over a full list goes past the cap.
Trusted boundary: none
Main exports: AtRest, settleCursorAt_rest, Steady, Fits, OnCharacter, RoundTrips, Meets, step_fits,
  jumps_run
-/
import Bemtvi.Core.Jumps
import Bemtvi.Core.LineEditsLaws
import Bemtvi.Lib.Run

namespace Bemtvi.Core.Jumps

open Utf8
open Run (run Along)

section Editing

variable {E : Type} [ExtmarkStore E] [Graphemes]

/-! ### Cursors at rest -/

omit [ExtmarkStore E] [Graphemes] in
/-- A line is what it shows, and its break. -/
theorem stripEol_append (line : Text) : ∃ eol, line = stripEol line ++ eol := by
  have strip : ∀ (text : Text) (c : Char), text.getLast? = some c → text = text.dropLast ++ [c] := by
    intro text c last
    exact (List.dropLast_append_getLast? c last).symm
  unfold stripEol
  split
  · next newline =>
      split
      · next carriage =>
          refine ⟨['\r', '\n'], ?_⟩
          conv_lhs => rw [strip line _ newline, strip line.dropLast _ carriage]
          simp
      · exact ⟨['\n'], strip line _ newline⟩
  · exact ⟨[], (List.append_nil line).symm⟩

/-- Graphemes start between characters. -/
class LawfulGraphemes [Graphemes] : Prop where
  boundary : ∀ (line : Text) (byte : Nat), Graphemes.isBoundary line byte = true →
    size (within line byte) = byte

/-- Where the cursor is left by a command. -/
structure AtRest (buffer : Buffer E) (pastEnd : Bool) (cursor : Point) : Prop where
  line : cursor.1 ≤ buffer.lastLine
  col : cursor.2 ≤ if pastEnd then buffer.lineLen cursor.1 else buffer.lineLen cursor.1 - 1
  snapped : floorGrapheme (buffer.lineCow cursor.1) cursor.2 = cursor.2

omit [ExtmarkStore E] [Graphemes] in
theorem size_lineCow (buffer : Buffer E) (line : Nat) :
    size (buffer.lineCow line) = buffer.lineLen line := by
  unfold Buffer.lineCow Buffer.lineLen
  split <;> rfl

omit [ExtmarkStore E] [Graphemes] in
theorem floorTo_le (good : Nat → Bool) (byte : Nat) : floorTo good byte ≤ byte := by
  induction byte with
  | zero => exact Nat.le_refl _
  | succ byte ih =>
      rw [floorTo]
      split
      · exact Nat.le_refl _
      · exact Nat.le_succ_of_le ih

omit [ExtmarkStore E] [Graphemes] in
theorem floorTo_good (good : Nat → Bool) (byte : Nat) :
    floorTo good byte = 0 ∨ good (floorTo good byte) = true := by
  induction byte with
  | zero => exact Or.inl rfl
  | succ byte ih =>
      rw [floorTo]
      split
      · next here => exact Or.inr here
      · exact ih

omit [ExtmarkStore E] [Graphemes] in
theorem floorTo_floorTo (good : Nat → Bool) (byte : Nat) :
    floorTo good (floorTo good byte) = floorTo good byte := by
  rcases floorTo_good good byte with zero | here
  · rw [zero]
    rfl
  · cases floored : floorTo good byte with
    | zero => rfl
    | succ found =>
        rw [floored] at here
        rw [floorTo, if_pos here]

omit [ExtmarkStore E] in
theorem floorGrapheme_le {line : Text} {byte : Nat} : floorGrapheme line byte ≤ byte := by
  unfold floorGrapheme
  split
  · next past => exact past
  · exact floorTo_le _ _

omit [ExtmarkStore E] in
theorem floorGrapheme_floorGrapheme (line : Text) (byte : Nat) :
    floorGrapheme line (floorGrapheme line byte) = floorGrapheme line byte := by
  unfold floorGrapheme
  split
  · rw [if_pos (Nat.le_refl _)]
  · next inside =>
      have below := floorTo_le (Graphemes.isBoundary line) byte
      rw [if_neg (by omega), floorTo_floorTo]

omit [ExtmarkStore E] in
/-- A place graphemes are floored to is between characters. -/
theorem within_of_floor [LawfulGraphemes] {line : Text} {byte : Nat}
    (snapped : floorGrapheme line byte = byte) (inside : byte ≤ size line) :
    size (within line byte) = byte := by
  unfold floorGrapheme at snapped
  split at snapped
  · rw [within_of_size_le (by omega)]
    exact snapped
  · rcases floorTo_good (Graphemes.isBoundary line) byte with zero | here
    · obtain rfl : byte = 0 := snapped.symm.trans zero
      rw [within_zero]
      rfl
    · rw [snapped] at here
      exact LawfulGraphemes.boundary line byte here

omit [ExtmarkStore E] in
/-- A clamped cursor rests. -/
theorem atRest_clampCursor (buffer : Buffer E) (pastEnd : Bool) (cursor : Point) :
    AtRest buffer pastEnd (clampCursor buffer pastEnd cursor) := by
  constructor
  · exact Nat.min_le_right _ _
  · refine Nat.le_trans floorGrapheme_le ?_
    exact Nat.le_trans (Nat.min_le_left _ _) (Nat.min_le_right _ _)
  · exact floorGrapheme_floorGrapheme _ _

omit [ExtmarkStore E] [Graphemes] in
theorem size_within_front {text front back : Text} (whole : text = front ++ back) :
    size (within text (size front)) = size front := by
  have cut_here := within_append front back 0
  rw [Nat.add_zero, within_zero, List.append_nil] at cut_here
  rw [whole, cut_here]

variable {buffer : Buffer E} {editor : Editor E}

omit [ExtmarkStore E] [Graphemes] in
/-- A place on a line's character is found at its offset. -/
theorem point_byteAt {line col : Nat} (inside : line ≤ buffer.lastLine)
    (on_line : col ≤ buffer.lineLen line - 1)
    (between : size (within (buffer.lineCow line) col) = col) :
    ∃ idx, idx = Utf8.lineStart buffer.text line + col ∧ idx ≤ size buffer.text - 1 ∧
      size (within buffer.text idx) = idx ∧ point buffer.text idx = (line, col) := by
  by_cases editable : line < buffer.lineCount
  · have below : line + 1 < (lines buffer.text).length := by
      unfold Buffer.lineCount at editable
      omega
    have here : (lines buffer.text)[line]? = some (lines buffer.text)[line] :=
      List.getElem?_eq_getElem _
    generalize (lines buffer.text)[line] = whole at here
    have some_text := line_ne_nil here below
    have shown : buffer.lineCow line = stripEol whole := by
      rw [Buffer.lineCow, if_pos editable, here]
      rfl
    have length : buffer.lineLen line = size (stripEol whole) := by
      rw [← size_lineCow, shown]
    rw [shown] at between
    obtain ⟨eol, split⟩ := stripEol_append whole
    obtain ⟨rest, front_rest⟩ := within_front (stripEol whole) col
    generalize within (stripEol whole) col = front at between front_rest
    have whole_eq : whole = front ++ (rest ++ eol) := by
      rw [← List.append_assoc, front_rest]
      exact split
    have behind : rest ++ eol ≠ [] := by
      intro nothing
      have no_rest : rest = [] := (List.append_eq_nil_iff.1 nothing).1
      rw [no_rest, List.append_nil] at front_rest
      rw [length, ← front_rest, between] at on_line
      obtain rfl : front = [] := by
        rw [← size_eq_zero, between]
        omega
      exact some_text (by rw [whole_eq, nothing]; rfl)
    rw [whole_eq] at here
    have text_eq : buffer.text = (((lines buffer.text).take line).flatten ++ front) ++
        ((rest ++ eol) ++ ((lines buffer.text).drop (line + 1)).flatten) := by
      conv_lhs => rw [← lines_flatten buffer.text, ← List.take_append_drop line (lines buffer.text)]
      rw [List.drop_eq_getElem_cons (by omega : line < (lines buffer.text).length)]
      rw [List.getElem?_eq_getElem (by omega), Option.some.injEq] at here
      rw [here]
      simp
    have offset : Utf8.lineStart buffer.text line + col =
        size (((lines buffer.text).take line).flatten ++ front) := by
      rw [size_append, ← lineStart_eq, between]
    refine ⟨_, rfl, ?_, ?_, ?_⟩
    · have positive : size (rest ++ eol) ≠ 0 := by
        rw [ne_eq, size_eq_zero]
        exact behind
      have total := congrArg size text_eq
      rw [size_append, ← offset, size_append] at total
      omega
    · rw [offset]
      exact size_within_front text_eq
    · have found := pointFrom_line (0, 0) here (Or.inl behind)
      rw [between] at found
      rw [point, found]
      simp
  · have nothing : buffer.lineLen line = 0 := by rw [Buffer.lineLen, if_neg editable]
    obtain rfl : col = 0 := by omega
    obtain rfl : line = 0 := by
      unfold Buffer.lastLine at inside
      omega
    have start : Utf8.lineStart buffer.text 0 = 0 := by
      cases buffer.text <;> rfl
    refine ⟨0, by rw [start], Nat.zero_le _, by rw [within_zero]; rfl, ?_⟩
    rw [point]
    cases buffer.text with
    | nil => rfl
    | cons c text => rw [pointFrom, if_pos c.utf8Size_pos]

omit [Graphemes] [ExtmarkStore E] in
/-- No newline is left to trim. -/
theorem lineCow_trimmed (buffer : Buffer E) (line : Nat) :
    (buffer.lineCow line).rdropWhile (· = '\n') = buffer.lineCow line := by
  rw [List.rdropWhile_eq_self_iff]
  intro some_text
  have last_mem := List.getLast_mem some_text
  have inner : '\n' ∉ buffer.lineCow line := by
    unfold Buffer.lineCow
    split
    · cases here : (lines buffer.text)[line]? with
      | none => exact List.not_mem_nil
      | some whole =>
          have outside := newline_last (List.mem_of_getElem? here)
          rw [Option.getD_some]
          unfold stripEol
          split
          · split
            · intro member
              exact outside (List.dropLast_subset _ member)
            · exact outside
          · next other =>
              intro member
              rcases List.eq_nil_or_concat whole with rfl | ⟨front, last, rfl⟩
              · cases member
              · rw [List.concat_eq_append, List.dropLast_concat] at outside
                rw [List.concat_eq_append] at member other
                rcases List.mem_append.1 member with early | late
                · exact outside early
                · obtain rfl : '\n' = last := by simpa using late
                  exact other List.getLast?_concat
    · exact List.not_mem_nil
  intro newline
  rw [decide_eq_true_eq] at newline
  rw [newline] at last_mem
  exact inner last_mem

omit [ExtmarkStore E] [Graphemes] in
theorem byteToLine_of_point [ExtmarkStore E] {idx : Nat} {place : Point}
    (here : point buffer.text idx = place) :
    buffer.byteToLine idx = place.1 ∧ idx - buffer.lineStart place.1 = place.2 := by
  have whole := lineStart_point buffer.text idx
  constructor
  · rw [Buffer.byteToLine, here]
  · rw [here] at whole
    rw [Buffer.lineStart]
    omega

/-- **A cursor at rest on a character is settled where it is.** -/
theorem settleCursorAt_rest [LawfulGraphemes] {cursor : Point}
    (rests : AtRest buffer false cursor) (pastEnd : Bool) :
    settleCursorAt buffer pastEnd cursor.1 cursor.2 = cursor := by
  obtain ⟨line, col⟩ := cursor
  obtain ⟨inside, on_line, snapped⟩ := rests
  simp only [Bool.false_eq_true, if_false] at inside on_line snapped
  have within_line : col ≤ buffer.lineLen line := by omega
  have between := within_of_floor snapped (by rw [size_lineCow]; exact within_line)
  obtain ⟨idx, offset, small, cut_here, found⟩ := point_byteAt inside on_line between
  obtain ⟨on_row, in_row⟩ := byteToLine_of_point found
  have snap : ∀ c, c = col → snapCursor buffer (line, c) = (line, col) := by
    rintro c rfl
    rw [snapCursor, Nat.min_eq_left within_line, snapped]
  have set_here : setCursorChar buffer (buffer.byteAt line col) = (line, col) := by
    have at_idx : buffer.byteAt line col = idx := offset.symm
    rw [setCursorChar, at_idx, Nat.min_eq_left small, cut_here]
    simp only [on_row]
    exact snap _ in_row
  have clamped : min col (if pastEnd then buffer.lineLen line else buffer.lineLen line - 1) = col := by
    split
    · exact Nat.min_eq_left within_line
    · exact Nat.min_eq_left on_line
  unfold settleCursorAt
  simp only [Nat.min_eq_left inside, lineCow_trimmed, size_lineCow, Nat.min_eq_left within_line,
    set_here, clampCursor]
  exact snap _ clamped

/-! ### The list and its pointer -/

omit [ExtmarkStore E] [Graphemes] in
theorem Window.pushJumpEntry_spec (win : Window) (entry : JumpEntry)
    (capped : win.jumps.length ≤ jumplistSize) :
    (win.pushJumpEntry entry).jumpIdx = (win.pushJumpEntry entry).jumps.length ∧
      (win.pushJumpEntry entry).jumps.length ≤ jumplistSize := by
  have kept := List.length_filter_le
    (fun e : JumpEntry => !(e.buf == entry.buf && e.line == entry.line)) win.jumps
  refine ⟨rfl, ?_⟩
  unfold Window.pushJumpEntry
  have cap : jumplistSize = 100 := rfl
  simp only [List.length_append, List.length_singleton]
  split
  · rw [List.length_drop]
    omega
  · omega

omit [ExtmarkStore E] [Graphemes] in
/-- The entries kept are no more, and the pointer goes back only for an entry before it. -/
theorem shiftEntries_spec (jumpIdx buf : Nat) (s oe ne : Point) (entries : List JumpEntry)
    (i idx : Nat) (room : jumpIdx ≤ idx + i) :
    ∃ kept idx', shiftEntries jumpIdx buf s oe ne i idx entries = some (kept, idx') ∧
      kept.length ≤ entries.length := by
  induction entries generalizing i idx with
  | nil => exact ⟨[], idx, rfl, Nat.le_refl _⟩
  | cons e rest ih =>
      rw [shiftEntries]
      split
      · obtain ⟨kept, idx', shifted, fewer⟩ := ih (i + 1) idx (by omega)
        rw [shifted]
        exact ⟨e :: kept, idx', rfl, Nat.succ_le_succ fewer⟩
      · split
        · next place _ =>
            obtain ⟨kept, idx', shifted, fewer⟩ := ih (i + 1) idx (by omega)
            rw [shifted]
            exact ⟨⟨buf, place.1, place.2⟩ :: kept, idx', rfl, Nat.succ_le_succ fewer⟩
        · split
          · rw [if_neg (by omega)]
            obtain ⟨kept, idx', shifted, fewer⟩ := ih (i + 1) (idx - 1) (by omega)
            exact ⟨kept, idx', shifted, Nat.le_succ_of_le fewer⟩
          · obtain ⟨kept, idx', shifted, fewer⟩ := ih (i + 1) idx (by omega)
            exact ⟨kept, idx', shifted, Nat.le_succ_of_le fewer⟩

omit [ExtmarkStore E] [Graphemes] in
theorem shiftWindowJumps_spec (win : Window) (buf : Nat) (s oe ne : Point)
    (pointer : win.jumpIdx ≤ win.jumps.length) :
    ∃ win', shiftWindowJumps win buf s oe ne = some win' ∧ win'.jumpIdx ≤ win'.jumps.length ∧
      win'.jumps.length ≤ win.jumps.length := by
  unfold shiftWindowJumps
  split
  · obtain ⟨kept, idx, shifted, fewer⟩ := shiftEntries_spec win.jumpIdx buf s oe ne win.jumps 0
      win.jumpIdx (Nat.le_refl _)
    rw [shifted]
    exact ⟨_, rfl, Nat.min_le_right _ _, fewer⟩
  · exact ⟨win, rfl, pointer, Nat.le_refl _⟩

/-- The first `<C-o>` from the present stashes where it is. -/
def Stashes (editor : Editor E) (count : Nat) : Prop :=
  editor.window.jumpIdx = editor.window.jumps.length ∧ max count 1 ≤ editor.window.jumps.length

namespace Editor

/-- The editor with another list, at one of its entries. -/
def landAt (editor : Editor E) (jumps : List JumpEntry) (idx : Nat) (target : JumpEntry) :
    Editor E :=
  { editor with window := ⟨jumps, idx, editor.window.jumpGen + 1⟩ }.jumpToEntry target

variable {editor : Editor E}

omit [ExtmarkStore E] in
theorem jumpNav_stash {count : Nat} (stashes : Stashes editor count) :
    ∃ target, editor.window.jumps[editor.window.jumps.length - max count 1]? = some target ∧
      editor.jumpNav true count = some (editor.landAt (editor.window.jumps ++ [editor.here])
        (editor.window.jumps.length - max count 1) target) := by
  obtain ⟨present, enough⟩ := stashes
  have inside : editor.window.jumps.length - max count 1 < editor.window.jumps.length := by omega
  refine ⟨_, List.getElem?_eq_getElem inside, ?_⟩
  have idx_eq : (((editor.window.jumps ++ [editor.here]).length : Int) - 1 + -(max count 1 : Nat)).toNat =
      editor.window.jumps.length - max count 1 := by
    rw [List.length_append, List.length_singleton]
    omega
  have some_entries : ¬ (editor.window.jumps.length : Int) = 0 := by omega
  have allowed : ¬ ((editor.window.jumpIdx : Int) + -(max count 1 : Nat) < 0 ∨
      (editor.window.jumpIdx : Int) + -(max count 1 : Nat) ≥ editor.window.jumps.length) := by omega
  have forward : ¬ ((editor.window.jumps ++ [editor.here]).length : Int) - 1 +
      -(max count 1 : Nat) < 0 := by
    rw [List.length_append, List.length_singleton]
    omega
  unfold jumpNav
  simp only [if_true]
  rw [if_neg some_entries, if_neg allowed]
  simp only [present, if_true]
  rw [if_neg forward, idx_eq, List.getElem?_append_left inside, List.getElem?_eq_getElem inside]
  rfl

omit [ExtmarkStore E] in
theorem jumpNav_forward (count : Nat)
    (inside : editor.window.jumpIdx + max count 1 < editor.window.jumps.length) :
    ∃ target, editor.window.jumps[editor.window.jumpIdx + max count 1]? = some target ∧
      editor.jumpNav false count = some (editor.landAt editor.window.jumps
        (editor.window.jumpIdx + max count 1) target) := by
  refine ⟨_, List.getElem?_eq_getElem inside, ?_⟩
  have idx_eq : ((editor.window.jumpIdx : Int) + (max count 1 : Nat)).toNat =
      editor.window.jumpIdx + max count 1 := by omega
  have not_last : ¬ editor.window.jumpIdx = editor.window.jumps.length := by omega
  unfold jumpNav
  simp only [Bool.false_eq_true, if_false, not_last]
  rw [if_neg (by omega), if_neg (by omega), if_neg (by omega), idx_eq,
    List.getElem?_eq_getElem inside]
  rfl

omit [ExtmarkStore E] in
/-- A step from inside the list walks it, or goes nowhere. -/
theorem jumpNav_inside (back : Bool) (count : Nat)
    (inside : editor.window.jumpIdx < editor.window.jumps.length) :
    editor.jumpNav back count = some editor ∨
      ∃ idx target, editor.window.jumps[idx]? = some target ∧
        editor.jumpNav back count = some (editor.landAt editor.window.jumps idx target) := by
  unfold jumpNav
  generalize (if back = true then -((max count 1 : Nat) : Int) else ((max count 1 : Nat) : Int)) = delta
  rw [if_neg (by omega)]
  split
  · exact Or.inl rfl
  · next allowed =>
      refine Or.inr ⟨((editor.window.jumpIdx : Int) + delta).toNat, ?_⟩
      have within : ((editor.window.jumpIdx : Int) + delta).toNat < editor.window.jumps.length := by
        omega
      refine ⟨_, List.getElem?_eq_getElem within, ?_⟩
      simp only [Nat.ne_of_lt inside, if_false]
      rw [if_neg (by omega), List.getElem?_eq_getElem within]
      rfl

omit [ExtmarkStore E] in
/-- From the present there is nothing newer, and no stash when there is too little older. -/
theorem jumpNav_present {back : Bool} {count : Nat}
    (present : editor.window.jumpIdx = editor.window.jumps.length)
    (refused : back = false ∨ ¬ Stashes editor count) :
    editor.jumpNav back count = some editor := by
  have outside : ((editor.window.jumpIdx : Int) +
        (if back = true then -((max count 1 : Nat) : Int) else ((max count 1 : Nat) : Int)) < 0 ∨
      (editor.window.jumpIdx : Int) +
        (if back = true then -((max count 1 : Nat) : Int) else ((max count 1 : Nat) : Int)) ≥
          editor.window.jumps.length) := by
    cases back with
    | false =>
        rw [if_neg (by simp)]
        omega
    | true =>
        have short : ¬ max count 1 ≤ editor.window.jumps.length := by
          intro enough
          rcases refused with forward | none_stashed
          · cases forward
          · exact none_stashed ⟨present, enough⟩
        rw [if_pos rfl]
        omega
  unfold jumpNav
  simp only [outside, if_true, ite_self]

/-! ### What a landing keeps -/

omit [Graphemes] [ExtmarkStore E] in
theorem switchBuffer_cases (editor : Editor E) (id : Nat) :
    editor.switchBuffer id = editor ∨
      ((editor.files id).isNone = false ∧ editor.refuseOtherBuffer id = false ∧
        (editor.switchBuffer id).current = id ∧ (editor.switchBuffer id).files = editor.files ∧
        (editor.switchBuffer id).window = editor.window ∧
        (editor.switchBuffer id).pastEnd = editor.pastEnd ∧
        (editor.switchBuffer id).view = editor.view ∧
        (editor.switchBuffer id).lockedBuffer = editor.lockedBuffer) := by
  unfold switchBuffer
  split
  · exact Or.inl rfl
  · next other =>
      split
      · exact Or.inl rfl
      · next allowed =>
          have opened : (editor.files id).isNone = false := by
            rw [Bool.eq_false_iff]
            exact fun missing => other (Or.inr missing)
          exact Or.inr ⟨opened, by simpa using allowed, rfl, rfl, rfl, rfl, rfl, rfl⟩

end Editor

/-- What holds of the editor between commands: the focused window shows an open buffer that it may
show, and its cursor rests. -/
structure Steady (editor : Editor E) : Prop where
  rests : ∃ buffer, editor.files editor.current = some buffer ∧
    AtRest buffer editor.pastEnd editor.cursor
  allowed : editor.refuseOtherBuffer editor.current = false

/-- The list within its cap, and the pointer within the list. -/
structure Fits (win : Window) : Prop where
  pointer : win.jumpIdx ≤ win.jumps.length
  capped : win.jumps.length ≤ jumplistSize

omit [ExtmarkStore E] in
/-- Settling leaves the cursor at rest, and everything else alone. -/
theorem steady_settle (opened : (editor.files editor.current).isSome)
    (allowed : editor.refuseOtherBuffer editor.current = false) (line col : Nat) :
    Steady (editor.settle line col) := by
  obtain ⟨buffer, here⟩ := Option.isSome_iff_exists.1 opened
  have settled : editor.settle line col =
      { editor with cursor := settleCursorAt buffer editor.pastEnd line col } := by
    unfold Editor.settle
    rw [here]
  rw [settled]
  exact ⟨⟨buffer, here, atRest_clampCursor _ _ _⟩, allowed⟩

omit [ExtmarkStore E] in
theorem steady_clamp (opened : (editor.files editor.current).isSome)
    (allowed : editor.refuseOtherBuffer editor.current = false) : Steady editor.clamp := by
  obtain ⟨buffer, here⟩ := Option.isSome_iff_exists.1 opened
  have clamped : editor.clamp =
      { editor with cursor := clampCursor buffer editor.pastEnd editor.cursor } := by
    unfold Editor.clamp
    rw [here]
  rw [clamped]
  exact ⟨⟨buffer, here, atRest_clampCursor _ _ _⟩, allowed⟩

omit [ExtmarkStore E] in
theorem settle_window (editor : Editor E) (line col : Nat) :
    (editor.settle line col).window = editor.window ∧
      (editor.settle line col).files = editor.files ∧
      (editor.settle line col).current = editor.current ∧
      (editor.settle line col).view = editor.view ∧
      (editor.settle line col).lockedBuffer = editor.lockedBuffer ∧
      (editor.settle line col).pastEnd = editor.pastEnd := by
  unfold Editor.settle
  split <;> exact ⟨rfl, rfl, rfl, rfl, rfl, rfl⟩

omit [ExtmarkStore E] in
theorem clamp_window (editor : Editor E) : editor.clamp.window = editor.window := by
  unfold Editor.clamp
  split <;> rfl

omit [ExtmarkStore E] [Graphemes] in
theorem Steady.opened [ExtmarkStore E] [Graphemes] (steady : Steady editor) :
    (editor.files editor.current).isSome := by
  obtain ⟨buffer, here, -⟩ := steady.rests
  rw [here]
  rfl

omit [Graphemes] [ExtmarkStore E] in
/-- A switch keeps the window on an open buffer that it may show. -/
theorem switchBuffer_shows (opened : (editor.files editor.current).isSome)
    (allowed : editor.refuseOtherBuffer editor.current = false) (id : Nat) :
    ((editor.switchBuffer id).files (editor.switchBuffer id).current).isSome ∧
      (editor.switchBuffer id).refuseOtherBuffer (editor.switchBuffer id).current = false ∧
      (editor.switchBuffer id).window = editor.window := by
  rcases editor.switchBuffer_cases id with same | ⟨there, may, current, files, window, -, view, locked⟩
  · rw [same]
    exact ⟨opened, allowed, rfl⟩
  · refine ⟨?_, ?_, window⟩
    · rw [current, files]
      simpa [Option.isSome_iff_ne_none, Option.isNone_iff_eq_none] using there
    · rw [current]
      unfold Editor.refuseOtherBuffer at may ⊢
      rw [view, locked]
      exact may

/-- Landing on an entry leaves the list as it is, and the cursor at rest. -/
theorem jumpToEntry_spec (steady : Steady editor) (target : JumpEntry) :
    Steady (editor.jumpToEntry target) ∧ (editor.jumpToEntry target).window = editor.window := by
  have shows := switchBuffer_shows steady.opened steady.allowed target.buf
  unfold Editor.jumpToEntry
  split
  · exact ⟨steady, rfl⟩
  · split
    · exact ⟨steady_settle shows.1 shows.2.1 _ _, (settle_window _ _ _).1.trans shows.2.2⟩
    · exact ⟨steady_settle steady.opened steady.allowed _ _, (settle_window _ _ _).1⟩

theorem landAt_spec (steady : Steady editor) (jumps : List JumpEntry) (idx : Nat)
    (target : JumpEntry) : Steady (editor.landAt jumps idx target) ∧
      (editor.landAt jumps idx target).window = ⟨jumps, idx, editor.window.jumpGen + 1⟩ :=
  @jumpToEntry_spec E _ _ { editor with window := ⟨jumps, idx, editor.window.jumpGen + 1⟩ }
    ⟨steady.rests, steady.allowed⟩ target

/-! ### There and back -/

/-- Another place in the same editor. -/
structure SameFiles (editor away : Editor E) : Prop where
  files : away.files = editor.files
  view : away.view = editor.view
  locked : away.lockedBuffer = editor.lockedBuffer
  pastEnd : away.pastEnd = editor.pastEnd

omit [ExtmarkStore E] in
theorem jumpToEntry_same (editor : Editor E) (target : JumpEntry) :
    SameFiles editor (editor.jumpToEntry target) := by
  have settled : ∀ there : Editor E, SameFiles editor there →
      SameFiles editor (there.settle target.line target.col) := by
    intro there same
    obtain ⟨-, files, -, view, locked, pastEnd⟩ := settle_window there target.line target.col
    exact ⟨files.trans same.files, view.trans same.view, locked.trans same.locked,
      pastEnd.trans same.pastEnd⟩
  unfold Editor.jumpToEntry
  split
  · exact ⟨rfl, rfl, rfl, rfl⟩
  · apply settled
    split
    · rcases editor.switchBuffer_cases target.buf with same | ⟨-, -, -, files, -, pastEnd, view, locked⟩
      · rw [same]
        exact ⟨rfl, rfl, rfl, rfl⟩
      · exact ⟨files, view, locked, pastEnd⟩
    · exact ⟨rfl, rfl, rfl, rfl⟩

/-- The cursor rests on a character of the buffer shown, and not past the end of its line. -/
def OnCharacter (editor : Editor E) : Prop :=
  ∃ buffer, editor.files editor.current = some buffer ∧ AtRest buffer false editor.cursor

omit [ExtmarkStore E] in
/-- Normal mode keeps the cursor on a character. -/
theorem Steady.onCharacter (steady : Steady editor) (normal : editor.pastEnd = false) :
    OnCharacter editor := by
  obtain ⟨buffer, shown, rests⟩ := steady.rests
  rw [normal] at rests
  exact ⟨buffer, shown, rests⟩

/-- An entry of where the cursor rested on a character leads back there. -/
theorem jumpToEntry_here [LawfulGraphemes] {away : Editor E} (steady : Steady editor)
    (placed : OnCharacter editor) (same : SameFiles editor away) :
    (away.jumpToEntry editor.here).here = editor.here := by
  obtain ⟨buffer, shown, rests⟩ := placed
  have allowed := steady.allowed
  have opened : away.files editor.current = some buffer := by rw [same.files, shown]
  have settled : ∀ there : Editor E, there.current = editor.current → there.files = away.files →
      there.pastEnd = away.pastEnd →
      (there.settle editor.cursor.1 editor.cursor.2).here = editor.here := by
    intro there current files pastEnd
    unfold Editor.settle
    rw [current, files, opened]
    simp only [Editor.here, pastEnd, settleCursorAt_rest rests]
  unfold Editor.jumpToEntry
  have here_buf : editor.here.buf = editor.current := rfl
  rw [here_buf, opened, if_neg (by simp)]
  by_cases elsewhere : editor.current = away.current
  · rw [if_neg (by simpa using elsewhere)]
    exact settled away elsewhere.symm rfl rfl
  · rw [if_pos elsewhere]
    have open_there : ¬ (away.files editor.current).isNone = true := by
      rw [opened]
      simp
    have may : away.refuseOtherBuffer editor.current = false := by
      unfold Editor.refuseOtherBuffer at allowed ⊢
      rw [same.view, same.locked]
      exact allowed
    have switched : (away.switchBuffer editor.current).current = editor.current ∧
        (away.switchBuffer editor.current).files = away.files ∧
        (away.switchBuffer editor.current).pastEnd = away.pastEnd := by
      unfold Editor.switchBuffer
      rw [if_neg (not_or.2 ⟨elsewhere, open_there⟩), may]
      exact ⟨rfl, rfl, rfl⟩
    exact settled _ switched.1 switched.2.1 switched.2.2

/-- A `<C-o>` that left the present is taken back by a `<C-i>` of the same count. -/
def RoundTrips (editor : Editor E) : Prop :=
  ∀ count away, editor.window.jumpIdx = editor.window.jumps.length →
    editor.jumpNav true count = some away →
    away.window.jumpIdx ≠ away.window.jumps.length →
    ∃ home, away.jumpNav false count = some home ∧ home.here = editor.here

theorem roundTrips [LawfulGraphemes] (steady : Steady editor) (placed : OnCharacter editor) :
    RoundTrips editor := by
  intro count away present went moved
  by_cases stashes : Stashes editor count
  · obtain ⟨target, -, landed⟩ := editor.jumpNav_stash stashes
    rw [landed, Option.some.injEq] at went
    have window := (landAt_spec steady (editor.window.jumps ++ [editor.here])
      (editor.window.jumps.length - max count 1) target).2
    have same : SameFiles editor away := by
      rw [← went]
      exact ⟨(jumpToEntry_same _ _).files, (jumpToEntry_same _ _).view,
        (jumpToEntry_same _ _).locked, (jumpToEntry_same _ _).pastEnd⟩
    rw [went] at window
    have last : away.window.jumpIdx + max count 1 = editor.window.jumps.length := by
      have enough := stashes.2
      rw [window]
      simp only
      omega
    have jumps : away.window.jumps = editor.window.jumps ++ [editor.here] := by rw [window]
    obtain ⟨home, there, forward⟩ := away.jumpNav_forward count (by
      rw [last, jumps, List.length_append, List.length_singleton]
      exact Nat.lt_succ_self _)
    rw [last, jumps, List.getElem?_concat_length, Option.some.injEq] at there
    refine ⟨_, forward, ?_⟩
    rw [← there]
    exact jumpToEntry_here steady placed ⟨same.files, same.view, same.locked, same.pastEnd⟩
  · rw [Editor.jumpNav_present present (Or.inr stashes), Option.some.injEq] at went
    rw [← went] at moved
    exact absurd present moved

/-! ### Whole runs -/

/-- The step stashes nothing over a full list. -/
def Meets (editor : Editor E) : Event E → Prop
  | .back count => ¬ (Stashes editor count ∧ editor.window.jumps.length = jumplistSize)
  | _ => True

/-- A walk, in either direction. -/
theorem jumpNav_fits {back : Bool} {count : Nat} (steady : Steady editor)
    (fits : Fits editor.window)
    (room : back = true → ¬ (Stashes editor count ∧ editor.window.jumps.length = jumplistSize)) :
    ∃ next, editor.jumpNav back count = some next ∧ Steady next ∧ Fits next.window := by
  rcases Nat.lt_or_eq_of_le fits.pointer with inside | present
  · rcases Editor.jumpNav_inside back count inside with
      same | ⟨idx, target, found, landed⟩
    · exact ⟨editor, same, steady, fits⟩
    · obtain ⟨steady', window⟩ := landAt_spec steady editor.window.jumps idx target
      refine ⟨_, landed, steady', ?_⟩
      rw [window]
      have below := (List.getElem?_eq_some_iff.1 found).1
      exact ⟨Nat.le_of_lt below, fits.capped⟩
  · by_cases stashes : back = true ∧ Stashes editor count
    · obtain ⟨rfl, stashes⟩ := stashes
      obtain ⟨target, -, landed⟩ := editor.jumpNav_stash stashes
      obtain ⟨steady', window⟩ := landAt_spec steady (editor.window.jumps ++ [editor.here])
        (editor.window.jumps.length - max count 1) target
      refine ⟨_, landed, steady', ?_⟩
      have capped := fits.capped
      have below : editor.window.jumps.length ≠ jumplistSize := fun full => room rfl ⟨stashes, full⟩
      rw [window]
      constructor
      · simp only [List.length_append, List.length_singleton]
        omega
      · simp only [List.length_append, List.length_singleton]
        omega
    · refine ⟨editor, Editor.jumpNav_present present ?_, steady, fits⟩
      cases back with
      | false => exact Or.inl rfl
      | true => exact Or.inr fun here => stashes ⟨rfl, here⟩

/-- What one step keeps. -/
theorem step_fits {event : Event E} (steady : Steady editor) (fits : Fits editor.window)
    (meets : Meets editor event) :
    ∃ next, step editor event = some next ∧ Steady next ∧ Fits next.window := by
  cases event with
  | push =>
      obtain ⟨last, capped⟩ := editor.window.pushJumpEntry_spec editor.here fits.capped
      exact ⟨_, rfl, ⟨steady.rests, steady.allowed⟩, Nat.le_of_eq last, capped⟩
  | back count => exact jumpNav_fits steady fits fun _ => meets
  | forward count => exact jumpNav_fits steady fits fun back => by cases back
  | moveTo cursor pastEnd =>
      refine ⟨_, rfl, steady_clamp steady.opened steady.allowed, ?_⟩
      rw [clamp_window]
      exact fits
  | visit buf =>
      obtain ⟨opened, allowed, window⟩ := switchBuffer_shows steady.opened steady.allowed buf
      refine ⟨_, rfl, steady_clamp opened allowed, ?_⟩
      rw [clamp_window, window]
      exact fits
  | edit buf buffer s oe ne =>
      obtain ⟨window, shifted, pointer, fewer⟩ :=
        shiftWindowJumps_spec editor.window buf s oe ne fits.pointer
      rw [step, shifted]
      refine ⟨_, rfl, steady_clamp ?_ steady.allowed, ?_⟩
      · by_cases here : editor.current = buf
        · simp [here]
        · simpa [Function.update_of_ne here] using steady.opened
      · rw [clamp_window]
        exact ⟨pointer, Nat.le_trans fewer fits.capped⟩
  | wipe buf =>
      rw [step]
      split
      · exact ⟨editor, rfl, steady, fits⟩
      · next other =>
          refine ⟨_, rfl, ⟨?_, steady.allowed⟩, fits⟩
          obtain ⟨buffer, here, rests⟩ := steady.rests
          refine ⟨buffer, ?_, rests⟩
          rw [← here]
          exact Function.update_of_ne (Ne.symm other) _ _

/-- **The jump list over whole runs.**  As long as no first `<C-o>` stashes over a full list, every
step is taken without an index or a subtraction out of range, the pointer stays in the list, the list
within its cap, and from a character `<C-o>` and `<C-i>` lead home. -/
theorem jumps_run [LawfulGraphemes] (editor : Editor E) (steady : Steady editor)
    (fits : Fits editor.window) (events : List (Event E)) (along : Along Meets step editor events) :
    ∃ final, run step editor events = some final ∧
      final.window.jumpIdx ≤ final.window.jumps.length ∧
      final.window.jumps.length ≤ jumplistSize ∧
      (final.pastEnd = false ∨ OnCharacter final → RoundTrips final) := by
  obtain ⟨final, reached, steady, fits⟩ := Run.run_along_total
    (fun editor : Editor E => Steady editor ∧ Fits editor.window)
    (fun _ _ holds meets => step_fits holds.1 holds.2 meets) ⟨steady, fits⟩ along
  refine ⟨final, reached, fits.pointer, fits.capped, ?_⟩
  rintro (normal | placed)
  · exact roundTrips steady (steady.onCharacter normal)
  · exact roundTrips steady placed

end Editing

/-- Graphemes of one character each start between characters. -/
instance : LawfulGraphemes where
  boundary line byte here := by
    have there : (cut line byte).isSome = true := here
    obtain ⟨⟨front, back⟩, split⟩ := Option.isSome_iff_exists.1 there
    rw [within_of_cut split]
    exact (cut_eq_some.1 split).2

/-- A fresh window on a hundred empty lines. -/
def hundredLines : Editor Unit where
  files := Function.update (fun _ => none) 1 (some (.ofText (List.replicate 100 '\n')))
  savedCursor := fun _ => (0, 0)
  view := fun _ => false
  lockedBuffer := none
  current := 1
  cursor := (0, 0)
  pastEnd := false
  window := ⟨[], 0, 0⟩

/-- A jump from a line. -/
def jumpFrom (line : Nat) : List (Event Unit) := [.moveTo (line, 0) false, .push]

/-- Two jumps, and back over one of them. -/
theorem jumps_run_two :
    ∃ final, run step hundredLines (jumpFrom 3 ++ jumpFrom 7 ++ [.back 1]) = some final ∧
      final.window.jumpIdx ≤ final.window.jumps.length ∧
      final.window.jumps.length ≤ jumplistSize ∧
      (final.pastEnd = false ∨ OnCharacter final → RoundTrips final) := by
  refine jumps_run hundredLines ⟨⟨_, rfl, ?_⟩, rfl⟩ ⟨by decide, by decide⟩
    (jumpFrom 3 ++ jumpFrom 7 ++ [.back 1]) ?_
  · exact ⟨by decide, by decide, by decide⟩
  · refine ⟨trivial, fun _ first => ⟨trivial, fun _ second => ⟨trivial, fun _ third =>
      ⟨trivial, fun _ fourth => ⟨?_, fun _ _ => trivial⟩⟩⟩⟩⟩
    cases first
    cases second
    cases third
    cases fourth
    intro stashed
    exact absurd stashed.2 (by decide)

/-- Jumps from a hundred lines fill the list; the first `<C-o>` then puts a hundred and first entry
on it. -/
theorem jumps_past_cap :
    (run step hundredLines ((List.range 100).flatMap jumpFrom ++ [.back 1])).map
      (fun final => decide (final.window.jumps.length ≤ jumplistSize)) = some false := by
  decide +kernel

end Bemtvi.Core.Jumps
