/-
Module: Bemtvi.Core.MarkRides
Purpose: Positions ride edits.  A position behind an edit moves with its character exactly when the
  record of the edit is right, and marks and change-list entries stay places of the text over every run
  whose edits halve and join no `\r\n` where they start.
Trusted boundary: kernel-checked laws of the marks and the change list
Main exports: Places, shiftPoint_behind_iff, HalvesBreak, MarkEvent, Riding, positions_ride
-/
import Bemtvi.Core.Journal
import Bemtvi.Lib.Lines

namespace Bemtvi.Core.Rides

open Utf8
open Run (run Along run_along)
open Journal (Applies Exact charBefore charAt SplitsBreak)

variable {E : Type} [ExtmarkStore E]

/-! ### Order of places -/

/-- The place of a character's start, or of the end of the text. -/
def Places (text : Text) (pos : Point) : Prop :=
  ∃ front back, text = front ++ back ∧ pos = point text (size front)

theorem advance_before (place : Point) (c : Char) (next : Option Char) :
    Point.before place (advance place c next) := by
  have positive := c.utf8Size_pos
  unfold advance Point.before
  split
  · left
    exact Nat.lt_succ_self _
  · right
    exact ⟨rfl, Nat.lt_add_of_pos_right positive⟩

theorem not_before_walk (place : Point) (text : Text) (after : Option Char) :
    ¬ Point.before (walk place text after) place := by
  have onward := walk_forward place text after
  unfold Point.before
  omega

/-- Reading on from a place leads behind it. -/
theorem before_walk (place : Point) {text : Text} (some_text : text ≠ []) (after : Option Char) :
    Point.before place (walk place text after) := by
  obtain ⟨c, rest, rfl⟩ := List.exists_cons_of_ne_nil some_text
  rw [walk]
  have step := advance_before place c (rest.head?.or after)
  have onward := walk_forward (advance place c (rest.head?.or after)) rest after
  unfold Point.before at step ⊢
  omega

/-- Where one reads to from a place depends on the place alone by its row, and in its row. -/
theorem walk_translate (place : Point) (text : Text) (after : Option Char) :
    walk place text after = (place.1 + (walk (0, 0) text after).1,
      if (walk (0, 0) text after).1 = 0 then place.2 + (walk (0, 0) text after).2
      else (walk (0, 0) text after).2) := by
  induction text generalizing place with
  | nil => rfl
  | cons c text ih =>
      rw [walk, walk, ih, ih (advance (0, 0) c (text.head?.or after))]
      generalize walk (0, 0) text after = last
      unfold advance
      split
      · simp only [Nat.zero_add]
        have apart : ¬ 1 + last.1 = 0 := by omega
        rw [if_neg apart]
        refine Prod.ext ?_ rfl
        simp only
        omega
      · simp only [Nat.zero_add]
        refine Prod.ext rfl ?_
        simp only
        split
        · omega
        · rfl

/-! ### One position and one edit -/

variable {pos : Point} {before rest s : Text} {buffer buffer' next : Buffer E} {start stop : Nat}
  {list : List Point}

/-- No subtraction goes below zero. -/
theorem shiftPoint_no_underflow {oe : Point} (behind : ¬ Point.before pos oe) (ne : Point) :
    oe.1 ≤ pos.1 + ne.1 ∧ (pos.1 = oe.1 → oe.2 ≤ pos.2 + ne.2) := by
  unfold Point.before at behind
  omega

theorem shiftPoint_same (pos s : Point) : shiftPoint pos s s s = some pos := by
  unfold shiftPoint
  split
  · rfl
  · have row : pos.1 + s.1 - s.1 = pos.1 := by omega
    have col : pos.2 + s.2 - s.2 = pos.2 := by omega
    rw [row, col, ite_self]

/-- What an edit did: the text in front, what it took out and put in, the text behind. -/
structure Parts (edit : BufferEdit) (text text' front old back : Text) : Prop where
  text_eq : text = front ++ old ++ back
  text'_eq : text' = front ++ edit.text ++ back
  start_eq : edit.startByte = size front
  stop_eq : edit.oldEndByte = size front + size old
  end_eq : edit.newEndByte = size front + size edit.text
  start_point : edit.startPoint = walk (0, 0) front (old ++ back).head?
  stop_point : edit.oldEndPoint = walk (0, 0) (front ++ old) back.head?

theorem exists_parts {edit : BufferEdit} {text text' : Text} (applies : Applies edit text text') :
    ∃ front old back, Parts edit text text' front old back := by
  obtain ⟨front, old, back, text_eq, start_eq, stop_eq, text'_eq⟩ := splice_eq_some.1 applies.spliced
  refine ⟨front, old, back, text_eq, text'_eq, start_eq.symm, stop_eq.symm, ?_, ?_, ?_⟩
  · rw [applies.newEnd, start_eq]
  · rw [applies.startPoint, ← start_eq, text_eq, List.append_assoc, point_append]
  · rw [applies.oldEndPoint, ← stop_eq, text_eq, ← size_append, point_append]

variable {edit : BufferEdit} {text text' front old back : Text}

/-- The right place of the new end. -/
theorem Parts.exact_iff (parts : Parts edit text text' front old back)
    (applies : Applies edit text text') :
    Exact edit text text' ↔ edit.newEndPoint = walk (0, 0) (front ++ edit.text) back.head? := by
  have place : point text' edit.newEndByte = walk (0, 0) (front ++ edit.text) back.head? := by
    rw [parts.end_eq, parts.text'_eq, ← size_append, point_append]
  constructor
  · intro exact_edit
    rw [exact_edit.newEndPoint, place]
  · intro same
    exact ⟨applies, same.trans place.symm⟩

/-- The start of an edit is no later than its old end. -/
theorem Parts.stop_eq_walk (parts : Parts edit text text' front old back) :
    edit.oldEndPoint = walk edit.startPoint old back.head? := by
  rw [parts.stop_point, parts.start_point, walk_append, head?_append_or]

/-- A position in front of an edit stays, in its text too. -/
theorem Parts.ahead (parts : Parts edit text text' front old back)
    (split : front = before ++ rest) (some_rest : rest ≠ []) :
    point text' (size before) = point text (size before) ∧
      shiftPoint (point text (size before)) edit.startPoint edit.oldEndPoint edit.newEndPoint =
        some (point text (size before)) := by
  obtain ⟨c, rest', rfl⟩ := List.exists_cons_of_ne_nil some_rest
  have here : point text (size before) = walk (0, 0) before (some c) := by
    rw [parts.text_eq, split, List.append_assoc, List.append_assoc, point_append]
    rfl
  constructor
  · rw [here, parts.text'_eq, split, List.append_assoc, List.append_assoc, point_append]
    rfl
  · have earlier : Point.before (point text (size before)) edit.startPoint := by
      rw [here, parts.start_point, split, walk_append]
      exact before_walk _ (List.cons_ne_nil _ _) _
    rw [shiftPoint, if_pos earlier]

/-- A position inside what an edit took out is dropped or goes to its start. -/
theorem Parts.inside (parts : Parts edit text text' front old back) (split : old = before ++ rest)
    (some_rest : rest ≠ []) :
    shiftPoint (point text (size (front ++ before))) edit.startPoint edit.oldEndPoint
        edit.newEndPoint =
      if (point text (size (front ++ before))).1 < edit.oldEndPoint.1 then none
      else some edit.startPoint := by
  have here : point text (size (front ++ before)) = walk edit.startPoint before rest.head? := by
    obtain ⟨c, rest', rfl⟩ := List.exists_cons_of_ne_nil some_rest
    have whole : text = (front ++ before) ++ ((c :: rest') ++ back) := by
      rw [parts.text_eq, split]
      simp only [List.append_assoc]
    rw [whole, point_append, walk_append, parts.start_point, split]
    cases before <;> rfl
  have not_earlier : ¬ Point.before (point text (size (front ++ before))) edit.startPoint := by
    rw [here]
    exact not_before_walk _ _ _
  have earlier : Point.before (point text (size (front ++ before))) edit.oldEndPoint := by
    have stop := parts.stop_eq_walk
    rw [split, walk_append] at stop
    have same : rest.head?.or back.head? = rest.head? := by
      obtain ⟨c, rest', rfl⟩ := List.exists_cons_of_ne_nil some_rest
      rfl
    rw [same, ← here] at stop
    rw [stop]
    exact before_walk _ some_rest _
  rw [shiftPoint, if_neg not_earlier, if_neg (not_not.2 earlier)]

/-- A position behind an edit is read on to from the edit's old end, in the old text, and from its new
end in the new one. -/
theorem Parts.behind (parts : Parts edit text text' front old back)
    (split : back = before ++ rest) :
    point text (size (front ++ old ++ before)) = walk edit.oldEndPoint before rest.head? ∧
      point text' (size (front ++ edit.text ++ before)) =
        walk (walk (0, 0) (front ++ edit.text) back.head?) before rest.head? := by
  have head_eq : back.head? = before.head?.or rest.head? := by
    rw [split, head?_append_or]
  constructor
  · have whole : text = (front ++ old ++ before) ++ rest := by
      rw [parts.text_eq, split]
      simp only [List.append_assoc]
    rw [whole, point_append, walk_append, parts.stop_point, head_eq]
  · have whole : text' = (front ++ edit.text ++ before) ++ rest := by
      rw [parts.text'_eq, split]
      simp only [List.append_assoc]
    rw [whole, point_append, walk_append, head_eq]

/-- Read on to from the old end, a position is moved to where one reads to from the new end. -/
theorem shiftPoint_walk (s oe ne : Point) (before : Text) (after : Option Char)
    (ordered : ¬ Point.before oe s) :
    shiftPoint (walk oe before after) s oe ne = some (walk ne before after) := by
  have not_earlier : ¬ Point.before (walk oe before after) oe := not_before_walk _ _ _
  have not_first : ¬ Point.before (walk oe before after) s := by
    unfold Point.before at *
    omega
  rw [shiftPoint, if_neg not_first, if_pos not_earlier, walk_translate oe, walk_translate ne]
  generalize walk (0, 0) before after = last
  have row : oe.1 + last.1 + ne.1 - oe.1 = ne.1 + last.1 := by omega
  simp only [row, Option.some.injEq, Prod.mk.injEq, true_and]
  by_cases same : last.1 = 0
  · rw [if_pos same, if_pos same, if_pos (by omega)]
    omega
  · rw [if_neg same, if_neg same, if_neg (by omega)]

theorem Parts.ordered (parts : Parts edit text text' front old back) :
    ¬ Point.before edit.oldEndPoint edit.startPoint := by
  rw [parts.stop_eq_walk]
  exact not_before_walk _ _ _

theorem prefix_of_size_le {front back first last : Text} (same : front ++ back = first ++ last)
    (le : size front ≤ size first) : ∃ mid, first = front ++ mid ∧ back = mid ++ last := by
  rcases List.append_eq_append_iff.1 same with split | ⟨mid, front_eq, last_eq⟩
  · exact split
  · rw [front_eq, size_append] at le
    have empty : mid = [] := size_eq_zero.1 (by omega)
    subst empty
    exact ⟨[], by rw [front_eq, List.append_nil, List.append_nil], last_eq.symm⟩

/-- The positions behind an edit, each with where its character is afterwards. -/
def MovesBehind (edit : BufferEdit) (text text' : Text) : Prop :=
  ∀ front back, text = front ++ back → edit.oldEndByte ≤ size front →
    shiftPoint (point text (size front)) edit.startPoint edit.oldEndPoint edit.newEndPoint =
      some (point text' (size front + edit.newEndByte - edit.oldEndByte))

/-- Every position behind an edit moves with its character exactly when the edit's places are right. -/
theorem shiftPoint_behind_iff (applies : Applies edit text text') :
    MovesBehind edit text text' ↔ Exact edit text text' := by
  obtain ⟨front, old, back, parts⟩ := exists_parts applies
  rw [parts.exact_iff applies]
  constructor
  · intro moves
    have whole : text = (front ++ old) ++ back := parts.text_eq
    have moved := moves (front ++ old) back whole (by rw [parts.stop_eq, size_append])
    obtain ⟨at_stop, at_end⟩ := parts.behind (List.nil_append back).symm
    rw [List.append_nil] at at_stop at_end
    have target : size (front ++ old) + edit.newEndByte - edit.oldEndByte =
        size (front ++ edit.text) := by
      rw [parts.stop_eq, parts.end_eq, size_append, size_append]
      omega
    rw [target, at_stop, at_end, shiftPoint_walk _ _ _ _ _ parts.ordered] at moved
    exact Option.some.inj moved
  · intro exact_ first last split behind
    have whole : (front ++ old) ++ back = first ++ last := parts.text_eq.symm.trans split
    obtain ⟨mid, rfl, back_eq⟩ :=
      prefix_of_size_le whole (by rw [size_append, ← parts.stop_eq]; exact behind)
    obtain ⟨before_eq, after_eq⟩ := parts.behind back_eq
    have target : size (front ++ old ++ mid) + edit.newEndByte - edit.oldEndByte =
        size (front ++ edit.text ++ mid) := by
      rw [parts.stop_eq, parts.end_eq]
      simp only [size_append]
      omega
    rw [target, before_eq, after_eq, ← exact_]
    exact shiftPoint_walk _ _ _ _ _ parts.ordered

/-- What `shift_point` makes of the positions of a text. -/
structure Moves (edit : BufferEdit) (text text' : Text) : Prop where
  /-- Nothing goes below zero. -/
  no_underflow : ∀ pos, ¬ Point.before pos edit.oldEndPoint →
    edit.oldEndPoint.1 ≤ pos.1 + edit.newEndPoint.1 ∧
      (pos.1 = edit.oldEndPoint.1 → edit.oldEndPoint.2 ≤ pos.2 + edit.newEndPoint.2)
  /-- In front it stays, and is the place of the same character. -/
  ahead : ∀ front back, text = front ++ back → size front < edit.startByte →
    point text' (size front) = point text (size front) ∧
      shiftPoint (point text (size front)) edit.startPoint edit.oldEndPoint edit.newEndPoint =
        some (point text (size front))
  /-- Inside it is dropped, with a line break between it and the old end, or goes to the start. -/
  inside : ∀ front back, text = front ++ back → edit.startByte ≤ size front →
    size front < edit.oldEndByte →
      shiftPoint (point text (size front)) edit.startPoint edit.oldEndPoint edit.newEndPoint =
        if (point text (size front)).1 < (point text edit.oldEndByte).1 then none
        else some edit.startPoint
  behind : MovesBehind edit text text'

theorem moves_of_exact (exact_ : Exact edit text text') : Moves edit text text' where
  no_underflow := fun _ not_before => shiftPoint_no_underflow not_before _
  ahead := by
    obtain ⟨front, old, back, parts⟩ := exists_parts exact_.toApplies
    intro first last split lt
    rw [parts.start_eq] at lt
    have whole : first ++ last = front ++ (old ++ back) := by
      rw [← split, parts.text_eq, List.append_assoc]
    obtain ⟨mid, front_eq, _⟩ := prefix_of_size_le whole (Nat.le_of_lt lt)
    apply parts.ahead front_eq
    rintro rfl
    rw [front_eq, List.append_nil] at lt
    exact Nat.lt_irrefl _ lt
  inside := by
    obtain ⟨front, old, back, parts⟩ := exists_parts exact_.toApplies
    intro first last split le lt
    rw [parts.start_eq] at le
    rw [parts.stop_eq] at lt
    have whole : front ++ (old ++ back) = first ++ last := by
      rw [← split, parts.text_eq, List.append_assoc]
    obtain ⟨mid, rfl, rest_eq⟩ := prefix_of_size_le whole le
    rw [size_append] at lt
    obtain ⟨rest, old_eq, _⟩ := prefix_of_size_le rest_eq.symm (by omega)
    rw [← exact_.oldEndPoint]
    apply parts.inside old_eq
    rintro rfl
    rw [old_eq, List.append_nil] at lt
    exact Nat.lt_irrefl _ lt
  behind := (shiftPoint_behind_iff exact_.toApplies).2 exact_

/-! ### Edits at half a line break -/

/-- Behind a `\r`, taking these bytes out joins or splits a `\r\n`, or putting a text in splits one. -/
def HalvesBreak (text : Text) (start stop : Nat) (s : Text) : Prop :=
  charBefore text start = some '\r' ∧
    if s = [] then ¬ (charAt text start = some '\n' ↔ charAt text stop = some '\n')
    else charAt text start = some '\n' ∧ s.head? ≠ some '\n'

theorem Parts.charBefore_eq (parts : Parts edit text text' front old back) :
    charBefore text edit.startByte = front.getLast? := by
  rw [charBefore, parts.text_eq, parts.start_eq, List.append_assoc, cut_append]
  rfl

theorem Parts.charAt_start (parts : Parts edit text text' front old back) :
    charAt text edit.startByte = (old ++ back).head? := by
  rw [charAt, parts.text_eq, parts.start_eq, List.append_assoc, cut_append]
  rfl

theorem Parts.charAt_stop (parts : Parts edit text text' front old back) :
    charAt text edit.oldEndByte = back.head? := by
  rw [charAt, parts.text_eq, parts.stop_eq, ← size_append, cut_append]
  rfl

/-- A `\r` that ends a line, or ends it with a `\n` behind it, leads to one place. -/
theorem walk_return (place : Point) {front : Text} (carriage : front.getLast? = some '\r')
    {after : Option Char} (open_ : after ≠ some '\n') (after' : Option Char) :
    walk place front after = walk place (front ++ ['\n']) after' := by
  obtain ⟨first, rfl⟩ := List.getLast?_eq_some_iff.1 carriage
  rw [walk_append, List.append_assoc, walk_append]
  simp [walk, advance, breaks, open_]

/-- Where an edit starts is a place of the new text too. -/
theorem Parts.start_places (parts : Parts edit text text' front old back)
    (whole : ¬ HalvesBreak text edit.startByte edit.oldEndByte edit.text) :
    Places text' edit.startPoint := by
  rw [HalvesBreak, parts.charBefore_eq, parts.charAt_start, parts.charAt_stop] at whole
  have here : point text' (size front) = walk (0, 0) front (edit.text ++ back).head? := by
    rw [parts.text'_eq, List.append_assoc, point_append]
  by_cases same : front.getLast? = some '\r' →
      ((old ++ back).head? = some '\n' ↔ (edit.text ++ back).head? = some '\n')
  · refine ⟨front, edit.text ++ back, by rw [parts.text'_eq, List.append_assoc], ?_⟩
    rw [here, parts.start_point]
    exact walk_congr _ _ same
  · rw [Classical.not_imp] at same
    obtain ⟨carriage, differ⟩ := same
    rw [not_and] at whole
    have whole := whole carriage
    rcases put_in : edit.text with _ | ⟨c, more⟩
    · rw [put_in, if_pos rfl] at whole
      rw [put_in, List.nil_append] at differ
      exact absurd (not_not.1 whole) differ
    · rw [put_in, if_neg (List.cons_ne_nil _ _)] at whole
      rw [put_in, List.cons_append] at differ
      simp only [List.head?_cons, Option.some.injEq] at whole differ
      -- the `\r` ended its line; with the `\n` now behind it, it ends it one byte later
      have open_ : (old ++ back).head? ≠ some '\n' := by
        intro closed
        apply differ
        constructor
        · intro _
          by_contra other
          exact whole ⟨closed, fun same => other (Option.some.inj same)⟩
        · intro _
          exact closed
      have newline : c = '\n' := by
        by_contra other
        apply differ
        constructor
        · intro closed
          exact absurd closed open_
        · intro closed
          exact absurd closed other
      subst newline
      refine ⟨front ++ ['\n'], more ++ back, ?_, ?_⟩
      · rw [parts.text'_eq, put_in]
        simp
      · have split : text' = (front ++ ['\n']) ++ (more ++ back) := by
          rw [parts.text'_eq, put_in]
          simp
        rw [split, point_append, parts.start_point]
        exact walk_return _ carriage open_ _

/-- What is left of a place is a place. -/
theorem shiftPoint_places (exact_ : Exact edit text text') (start : Places text' edit.startPoint)
    {pos' : Point} (place : Places text pos)
    (shifted : shiftPoint pos edit.startPoint edit.oldEndPoint edit.newEndPoint = some pos') :
    Places text' pos' := by
  obtain ⟨front, old, back, parts⟩ := exists_parts exact_.toApplies
  have moves := moves_of_exact exact_
  obtain ⟨first, last, split, rfl⟩ := place
  rcases Nat.lt_or_ge (size first) edit.startByte with lt | ge
  · obtain ⟨same, kept⟩ := moves.ahead first last split lt
    rw [kept] at shifted
    cases shifted
    rw [parts.start_eq] at lt
    have whole : first ++ last = front ++ (old ++ back) := by
      rw [← split, parts.text_eq, List.append_assoc]
    obtain ⟨mid, front_eq, _⟩ := prefix_of_size_le whole (Nat.le_of_lt lt)
    refine ⟨first, mid ++ edit.text ++ back, ?_, same.symm⟩
    rw [parts.text'_eq, front_eq]
    simp only [List.append_assoc]
  · rcases Nat.lt_or_ge (size first) edit.oldEndByte with lt | ge'
    · rw [moves.inside first last split ge lt] at shifted
      split at shifted
      · cases shifted
      · cases shifted
        exact start
    · rw [moves.behind first last split ge'] at shifted
      cases shifted
      have whole : (front ++ old) ++ back = first ++ last := parts.text_eq.symm.trans split
      obtain ⟨mid, rfl, rfl⟩ :=
        prefix_of_size_le whole (by rw [size_append, ← parts.stop_eq]; exact ge')
      refine ⟨front ++ edit.text ++ mid, last, ?_, ?_⟩
      · rw [parts.text'_eq]
        simp only [List.append_assoc]
      · rw [parts.stop_eq, parts.end_eq]
        simp only [size_append]
        congr 1
        omega

/-! ### Recorded edits -/

/-- A mutation recorded one edit, of these bytes and this text, whose places are right unless it halves a
line break. -/
structure Records (buffer buffer' : Buffer E) (edit : BufferEdit) (start stop : Nat) (s : Text) :
    Prop where
  after : buffer' = ({ buffer with text := buffer'.text } : Buffer E).record edit
  applies : Applies edit buffer.text buffer'.text
  start_eq : edit.startByte = start
  stop_eq : edit.oldEndByte = stop
  text_eq : edit.text = s
  exact_ : ¬ HalvesBreak buffer.text start stop s → Exact edit buffer.text buffer'.text

theorem insert_records {byte : Nat} (some_text : s ≠ [])
    (inserted : buffer.insert byte s = some buffer') :
    ∃ edit, Records buffer buffer' edit byte byte s := by
  rcases Buffer.insert_cases inserted with ⟨none_, -⟩ | ⟨-, text, spliced, rfl⟩
  · exact absurd none_ some_text
  · have applies := Journal.applies_of_splice spliced (point text (byte + size s))
    exact ⟨_, rfl, applies, rfl, rfl, rfl, fun _ => ⟨applies, rfl⟩⟩

theorem remove_records (some_bytes : start < stop)
    (removed : buffer.remove start stop = some buffer') :
    ∃ edit, Records buffer buffer' edit start stop [] := by
  rcases Buffer.remove_cases removed with ⟨none_, -⟩ | ⟨-, text, spliced, rfl⟩
  · exact absurd some_bytes (Nat.not_lt.2 none_)
  · have applies := Journal.applies_of_splice spliced (point buffer.text start)
    refine ⟨_, rfl, applies, rfl, rfl, rfl, ?_⟩
    intro whole
    have same : point buffer.text start = point text start := by
      apply (Journal.point_splice spliced).2
      rintro ⟨carriage, differ⟩
      exact whole ⟨carriage, by rwa [if_pos rfl]⟩
    exact ⟨applies, same⟩

theorem replace_records (some_bytes : start < stop) (some_text : s ≠ [])
    (replaced : buffer.replace start stop s = some buffer') :
    ∃ edit, Records buffer buffer' edit start stop s := by
  rcases Buffer.replace_cases replaced with ⟨none_, -, -⟩ | ⟨none_, -, -⟩ | ⟨-, none_, -⟩ |
    ⟨-, -, text, spliced, rfl⟩
  · exact absurd some_bytes (Nat.not_lt.2 none_)
  · exact absurd some_bytes (Nat.not_lt.2 none_)
  · exact absurd none_ some_text
  · have applies := Journal.applies_of_splice spliced (point text (start + size s))
    exact ⟨_, rfl, applies, rfl, rfl, rfl, fun _ => ⟨applies, rfl⟩⟩

/-! ### Buffers -/

/-- Marks and change-list entries are places of the text, and the entries are not too many. -/
structure Riding (buffer : Buffer E) : Prop where
  marks : ∀ name pos, buffer.marks name = some pos → Places buffer.text pos
  changes : ∀ pos ∈ buffer.changelist, Places buffer.text pos
  short : buffer.changelist.length ≤ changelistSize

theorem shiftMarks_eq (marks : Char → Option Point) (s oe ne : Point) (name : Char) :
    shiftMarks marks s oe ne name = (marks name).bind (shiftPoint · s oe ne) := by
  unfold shiftMarks
  split
  · next same =>
    obtain ⟨rfl, rfl⟩ := same
    cases marks name with
    | none => rfl
    | some pos => exact (shiftPoint_same pos s).symm
  · rfl

theorem mem_shiftChangelist {s oe ne pos' : Point} (member : pos' ∈ shiftChangelist list s oe ne) :
    ∃ pos ∈ list, shiftPoint pos s oe ne = some pos' := by
  unfold shiftChangelist at member
  split at member
  · next same =>
    obtain ⟨rfl, rfl⟩ := same
    exact ⟨pos', member, shiftPoint_same pos' s⟩
  · exact List.mem_filterMap.1 member

theorem shiftChangelist_length_le (list : List Point) (s oe ne : Point) :
    (shiftChangelist list s oe ne).length ≤ list.length := by
  unfold shiftChangelist
  split
  · exact Nat.le_refl _
  · exact List.length_filterMap_le _ _

theorem mem_addToChangelist {other : Point} (member : other ∈ addToChangelist list pos) :
    other ∈ list ∨ other = pos := by
  unfold addToChangelist at member
  split at member
  · split at member
    · rcases List.mem_append.1 member with kept | added
      · exact .inl (List.mem_of_mem_dropLast kept)
      · exact .inr (List.mem_singleton.1 added)
    · split at member
      · rcases List.mem_append.1 member with kept | added
        · exact .inl (List.mem_of_mem_drop kept)
        · exact .inr (List.mem_singleton.1 added)
      · rcases List.mem_append.1 member with kept | added
        · exact .inl kept
        · exact .inr (List.mem_singleton.1 added)
  · rcases List.mem_append.1 member with kept | added
    · exact .inl kept
    · exact .inr (List.mem_singleton.1 added)

theorem addToChangelist_length_le (short : list.length ≤ changelistSize) (pos : Point) :
    (addToChangelist list pos).length ≤ changelistSize := by
  unfold addToChangelist
  split
  · next last is_last =>
    have filled : list ≠ [] := by
      rintro rfl
      cases is_last
    have positive := List.length_pos_of_ne_nil filled
    split
    · rw [List.length_append, List.length_dropLast, List.length_singleton]
      omega
    · split
      · rw [List.length_append, List.length_drop, List.length_singleton]
        omega
      · rw [List.length_append, List.length_singleton]
        omega
  · next none_last =>
    rw [List.getLast?_eq_none_iff.1 none_last]
    show 1 ≤ changelistSize
    decide

/-- A recorded edit that halves no line break keeps everything a place. -/
theorem Records.riding {edit : BufferEdit} (records : Records buffer buffer' edit start stop s)
    (riding : Riding buffer) (whole : ¬ HalvesBreak buffer.text start stop s) : Riding buffer' := by
  have exact_ := records.exact_ whole
  have start_places : Places buffer'.text edit.startPoint := by
    obtain ⟨front, old, back, parts⟩ := exists_parts records.applies
    apply parts.start_places
    rw [records.start_eq, records.stop_eq, records.text_eq]
    exact whole
  rw [records.after]
  constructor
  · intro name pos marked
    change setMark (shiftMarks buffer.marks edit.startPoint edit.oldEndPoint edit.newEndPoint) '.'
      (some edit.startPoint) name = some pos at marked
    unfold setMark at marked
    split at marked
    · cases marked
      exact start_places
    · rw [shiftMarks_eq] at marked
      obtain ⟨pos', marked', shifted⟩ := Option.bind_eq_some_iff.1 marked
      exact shiftPoint_places exact_ start_places (riding.marks name pos' marked') shifted
  · intro pos member
    rcases mem_addToChangelist member with kept | rfl
    · obtain ⟨pos', member', shifted⟩ := mem_shiftChangelist kept
      exact shiftPoint_places exact_ start_places (riding.changes pos' member') shifted
    · exact start_places
  · apply addToChangelist_length_le
    exact (shiftChangelist_length_le _ _ _ _).trans riding.short

/-- A newline behind the whole text leaves the places where they are. -/
theorem places_concat (place : Places text pos) : Places (text ++ ['\n']) pos := by
  obtain ⟨front, back, rfl, rfl⟩ := place
  rw [point_append]
  rcases back with _ | ⟨c, back⟩
  · by_cases carriage : front.getLast? = some '\r'
    · have whole : front ++ [] ++ ['\n'] = (front ++ ['\n']) ++ [] := by simp
      refine ⟨front ++ ['\n'], [], whole, ?_⟩
      rw [whole, point_append]
      exact walk_return _ carriage (by simp) _
    · have whole : front ++ [] ++ ['\n'] = front ++ ['\n'] := by simp
      refine ⟨front, ['\n'], whole, ?_⟩
      rw [whole, point_append]
      apply walk_congr
      intro same
      exact absurd same carriage
  · have whole : front ++ c :: back ++ ['\n'] = front ++ (c :: back ++ ['\n']) := by simp
    refine ⟨front, c :: back ++ ['\n'], whole, ?_⟩
    rw [whole, point_append]
    rfl

theorem normalize_riding (riding : Riding buffer) (normalized : buffer.normalize = some buffer') :
    Riding buffer' := by
  rcases Buffer.normalize_cases normalized with same | ⟨after, span, inserted, rfl⟩
  · rw [same]
    exact riding
  · obtain ⟨edit, records⟩ := insert_records (List.cons_ne_nil _ _) inserted
    have whole : ¬ HalvesBreak buffer.text (size buffer.text) (size buffer.text) ['\n'] := by
      rintro ⟨-, halves⟩
      rw [if_neg (List.cons_ne_nil _ _)] at halves
      exact halves.2 rfl
    have after_riding := records.riding riding whole
    have text_eq : after.text = buffer.text ++ ['\n'] := by
      have spliced := records.applies.spliced
      rw [records.start_eq, records.stop_eq, records.text_eq] at spliced
      have at_end := splice_append buffer.text [] [] ['\n']
      simp only [List.append_nil, size_nil, Nat.add_zero] at at_end
      rw [at_end] at spliced
      exact (Option.some.inj spliced).symm
    constructor
    · intro name pos marked
      change setMark after.marks '.' (buffer.marks '.') name = some pos at marked
      unfold setMark at marked
      split at marked
      · show Places after.text pos
        rw [text_eq]
        exact places_concat (riding.marks '.' pos marked)
      · exact after_riding.marks name pos marked
    · intro pos member
      show Places after.text pos
      rw [text_eq]
      exact places_concat (riding.changes pos member)
    · exact riding.short

/-! ### Runs -/

/-- An event of a buffer, or a mark set or taken away by a command. -/
inductive MarkEvent where
  | buffer (event : Journal.Event)
  | mark (name : Char) (pos : Option Point)

def step (buffer : Buffer E) : MarkEvent → Option (Buffer E)
  | .buffer event => Journal.step buffer event
  | .mark name pos => some { buffer with marks := setMark buffer.marks name pos }

/-- No edit halves a line break where it starts, and a mark is set at a place of the text. -/
def Meets (buffer : Buffer E) : MarkEvent → Prop
  | .buffer (.insert byte s) => s ≠ [] → ¬ HalvesBreak buffer.text byte byte s
  | .buffer (.remove start stop) => start < stop → ¬ HalvesBreak buffer.text start stop []
  | .buffer (.replace start stop s) =>
      (start < stop → ¬ HalvesBreak buffer.text start stop s) ∧
        (stop ≤ start → s ≠ [] → ¬ HalvesBreak buffer.text start start s)
  | .buffer _ => True
  | .mark _ pos => ∀ place ∈ pos, Places buffer.text place

theorem insert_riding {byte : Nat} (riding : Riding buffer)
    (whole : s ≠ [] → ¬ HalvesBreak buffer.text byte byte s)
    (inserted : buffer.insert byte s = some buffer') : Riding buffer' := by
  rcases Buffer.insert_cases inserted with ⟨-, same⟩ | ⟨some_text, -⟩
  · rw [same]
    exact riding
  · obtain ⟨edit, records⟩ := insert_records some_text inserted
    exact records.riding riding (whole some_text)

theorem remove_riding (riding : Riding buffer)
    (whole : start < stop → ¬ HalvesBreak buffer.text start stop [])
    (removed : buffer.remove start stop = some buffer') : Riding buffer' := by
  rcases Buffer.remove_cases removed with ⟨-, same⟩ | ⟨some_bytes, -⟩
  · rw [same]
    exact riding
  · obtain ⟨edit, records⟩ := remove_records some_bytes removed
    exact records.riding riding (whole some_bytes)

theorem replace_riding (riding : Riding buffer)
    (whole : (start < stop → ¬ HalvesBreak buffer.text start stop s) ∧
      (stop ≤ start → s ≠ [] → ¬ HalvesBreak buffer.text start start s))
    (replaced : buffer.replace start stop s = some buffer') : Riding buffer' := by
  rcases Buffer.replace_cases replaced with ⟨-, -, same⟩ | ⟨none_, -, inserted⟩ |
    ⟨-, rfl, removed⟩ | ⟨some_bytes, some_text, -⟩
  · rw [same]
    exact riding
  · exact insert_riding riding (whole.2 none_) inserted
  · exact remove_riding riding whole.1 removed
  · obtain ⟨edit, records⟩ := replace_records some_bytes some_text replaced
    exact records.riding riding (whole.1 some_bytes)

theorem step_riding (buffer : Buffer E) (event : MarkEvent) (next : Buffer E)
    (riding : Riding buffer) (meets : Meets buffer event) (taken : step buffer event = some next) :
    Riding next := by
  cases event with
  | mark name pos =>
      cases taken
      constructor
      · intro other place marked
        change setMark buffer.marks name pos other = some place at marked
        unfold setMark at marked
        split at marked
        · exact meets place marked
        · exact riding.marks other place marked
      · exact riding.changes
      · exact riding.short
  | buffer event =>
      cases event with
      | insert byte s => exact insert_riding riding meets taken
      | remove start stop => exact remove_riding riding meets taken
      | replace start stop s => exact replace_riding riding meets taken
      | normalize => exact normalize_riding riding taken
      | resync text =>
          cases taken
          constructor
          · intro name pos marked
            cases marked
          · intro pos member
            cases member
          · exact Nat.zero_le _
      | take consumer =>
          cases taken
          cases consumer <;> exact ⟨riding.marks, riding.changes, riding.short⟩

omit [ExtmarkStore E] in
/-- The edit of a mutation is the one its journals got. -/
theorem exact_of_mutation {Good : Prop} (mutation : Journal.Mutation buffer next Good)
    (good : Good) {edit : BufferEdit}
    (recorded : ∀ c, next.journal c = (buffer.journal c).push edit) :
    Exact edit buffer.text next.text := by
  have pushed := recorded .treesitter
  cases mutation with
  | none same =>
      rw [same] at pushed
      have edits := congrArg (fun batch => batch.edits.length) pushed
      simp [EditBatch.push] at edits
  | edit other applies exact_iff journals =>
      rw [journals .treesitter] at pushed
      simp only [EditBatch.push, EditBatch.mk.injEq, List.append_cancel_left_eq, List.cons.injEq,
        and_true] at pushed
      rw [← pushed]
      exact exact_iff.2 good

theorem not_splits (whole : ¬ HalvesBreak text start stop []) :
    ¬ SplitsBreak text start stop := by
  rintro ⟨carriage, differ⟩
  exact whole ⟨carriage, by rwa [if_pos rfl]⟩

/-- The edit that a step records, if it records one, has its places right. -/
theorem step_exact {event : MarkEvent} {edit : BufferEdit} (meets : Meets buffer event)
    (taken : step buffer event = some next)
    (recorded : ∀ c, next.journal c = (buffer.journal c).push edit) :
    Exact edit buffer.text next.text := by
  cases event with
  | mark name pos =>
      cases taken
      have edits := congrArg (fun batch => batch.edits.length) (recorded .treesitter)
      simp [EditBatch.push, Buffer.journal] at edits
  | buffer event =>
      cases event with
      | insert byte s => exact exact_of_mutation (Journal.insert_mutation taken) trivial recorded
      | remove start stop =>
          exact exact_of_mutation (Journal.remove_mutation taken)
            (fun some_bytes => not_splits (meets some_bytes)) recorded
      | replace start stop s =>
          apply exact_of_mutation (Journal.replace_mutation taken) ?_ recorded
          rintro rfl some_bytes
          exact not_splits (meets.1 some_bytes)
      | normalize => exact exact_of_mutation (Journal.normalize_mutation taken) trivial recorded
      | resync text =>
          cases taken
          have edits := congrArg EditBatch.edits (recorded .treesitter)
          simp [EditBatch.push, Buffer.journal, Buffer.markResync, EditBatch.replaced] at edits
      | take consumer =>
          cases taken
          exact absurd recorded (Journal.take_ne_push buffer consumer edit)

/-- Over every run whose edits halve and join no line break where they start, marks and change-list
entries stay places of the text, there are never too many entries, and every edit moves every position
with its character. -/
theorem positions_ride {buffer : Buffer E} (riding : Riding buffer) {events : List MarkEvent}
    (along : Along Meets step buffer events) :
    (∀ final, Run.run step buffer events = some final → Riding final) ∧
      ∀ done event rest middle next edit, events = done ++ event :: rest →
        Run.run step buffer done = some middle → step middle event = some next →
        (∀ c, next.journal c = (middle.journal c).push edit) → Moves edit middle.text next.text := by
  constructor
  · intro final reached
    exact run_along Riding step_riding riding along reached
  · rintro done event rest middle next edit rfl reached taken recorded
    have later := Run.along_append along reached
    exact moves_of_exact (step_exact later.1 taken recorded)

/-- A line put in above a mark, and then part of the mark's line taken out. -/
theorem positions_ride_pair :
    ∃ final : Buffer Unit, Run.run step (Buffer.ofText "ab\n".toList)
        [.mark 'a' (some (0, 1)), .buffer (.insert 0 "x\n".toList), .buffer (.remove 2 3)] =
          some final ∧ final.marks 'a' = some (1, 0) ∧ Riding final := by
  have riding : Riding (Buffer.ofText "ab\n".toList) := by
    constructor
    · intro name pos marked
      cases marked
    · intro pos member
      cases member
    · exact Nat.zero_le _
  have reached : ∃ final : Buffer Unit, Run.run step (Buffer.ofText "ab\n".toList)
      [.mark 'a' (some (0, 1)), .buffer (.insert 0 "x\n".toList), .buffer (.remove 2 3)] =
        some final ∧ final.marks 'a' = some (1, 0) := ⟨_, rfl, by decide⟩
  obtain ⟨final, taken, marked⟩ := reached
  refine ⟨final, taken, marked, (positions_ride riding ?_).1 final taken⟩
  refine ⟨?_, fun next first => ⟨?_, fun later second => ⟨?_, fun _ _ => trivial⟩⟩⟩
  · rintro place ⟨⟩
    exact ⟨['a'], ['b', '\n'], rfl, by decide⟩
  · cases first
    intro _ halves
    exact absurd halves.1 (by decide)
  · cases first
    cases second
    intro _ halves
    exact absurd halves.1 (by decide)

/-- Taking `X` out of `a\rX\nb` joins a line break: the position of `b` moves to a row that is not
there. -/
theorem joined_break_misplaces :
    ∃ final : Buffer Unit, Run.run step (Buffer.ofText "a\rX\nb\n".toList)
        [.mark 'b' (some (2, 0)), .buffer (.remove 2 3)] = some final ∧
      final.text = "a\r\nb\n".toList ∧ final.marks 'b' = some (2, 0) ∧
      point final.text 3 = (1, 0) := by
  exact ⟨_, rfl, by decide, by decide, by decide⟩

end Bemtvi.Core.Rides
