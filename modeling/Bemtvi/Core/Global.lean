/-
Module: Bemtvi.Core.Global
Purpose: `:global` follows its target lines across the edits its own commands make.  The targets
  ride as rows against a shared base, shifted in bulk; what a target is told is what the buffer's
  mark rule says of its line, edit by edit, and every target has its one turn.
Trusted boundary: human-reviewed model of ex.rs:75-136 and 2205-2243 and jumps.rs:194-220; a command
  is the list of buffer mutations it makes; `i64` and `isize` do not overflow
Main exports: GlobalTargets, GlobalTargets.shift, exGlobal, ride, fate, Tracks, fate_meets,
  global_visits_targets
-/
import Bemtvi.Core.Journal

namespace Bemtvi.Core

open Utf8

/-! ### The targets -/

/-- `GlobalTargets`: the rows stand against a shared `base`. -/
structure GlobalTargets where
  rows : List Int
  base : Int
  alive : List Bool
deriving Repr, DecidableEq

/-- The index `slice::partition_point` finds in a partitioned slice. -/
def partitionPoint {α : Type} (p : α → Bool) (slice : List α) : Nat := (slice.takeWhile p).length

namespace GlobalTargets

def new (lines : List Nat) : GlobalTargets where
  rows := lines.map Int.ofNat
  base := 0
  alive := List.replicate lines.length true

def len (targets : GlobalTargets) : Nat := targets.rows.length

/-- The place a stored row stands for. -/
def pos (targets : GlobalTargets) (r : Int) : Point := ((r + targets.base).toNat, 0)

/-- `row`: the current line of target `i`, `none` once its line was deleted. -/
def row (targets : GlobalTargets) (i : Nat) : Option Nat :=
  if targets.alive[i]?.getD false then targets.rows[i]?.map fun r => (targets.pos r).1 else none

/-- `shift`: the targets from `next` on, across one edit that replaced `[s, oe)` with text ending
at `ne`. -/
def shift (targets : GlobalTargets) (next : Nat) (s oe ne : Point) : GlobalTargets :=
  let tail := targets.rows.drop next
  let lo := next + partitionPoint (fun r => Point.before (targets.pos r) s) tail
  let mid := next + partitionPoint (fun r => Point.before (targets.pos r) oe) tail
  let alive := targets.alive.mapIdx fun i alive =>
    if lo ≤ i ∧ i < mid ∧ oe.1 > (targets.pos (targets.rows[i]?.getD 0)).1 then false else alive
  let rows := targets.rows.mapIdx fun i r =>
    if lo ≤ i ∧ i < mid then (s.1 : Int) - targets.base else r
  let delta : Int := ne.1 - oe.1
  if delta = 0 then { targets with rows := rows, alive := alive }
  else if mid = next then { rows := rows, base := targets.base + delta, alive := alive }
  else
    { targets with
      rows := rows.mapIdx fun i r => if mid ≤ i then r + delta else r
      alive := alive }

/-- `shift`, by a recorded edit. -/
def shiftBy (targets : GlobalTargets) (next : Nat) (edit : BufferEdit) : GlobalTargets :=
  targets.shift next edit.startPoint edit.oldEndPoint edit.newEndPoint

end GlobalTargets

/-! ### The run -/

variable {E : Type} [ExtmarkStore E]

/-- What a command does to the text. -/
inductive TextOp where
  | insert (byte : Nat) (s : Text)
  | remove (start stop : Nat)
  | replace (start stop : Nat) (s : Text)
  | normalize
deriving Repr, DecidableEq

def Buffer.perform (buffer : Buffer E) : TextOp → Option (Buffer E)
  | .insert byte s => buffer.insert byte s
  | .remove start stop => buffer.remove start stop
  | .replace start stop s => buffer.replace start stop s
  | .normalize => buffer.normalize

def Buffer.performAll (buffer : Buffer E) : List TextOp → Option (Buffer E)
  | [] => some buffer
  | op :: ops => (buffer.perform op).bind (·.performAll ops)

/-- A target's turn: what the run looked like when it came, and the line the command ran on. -/
structure Turn (E : Type) where
  target : Nat
  marks : GlobalTargets
  buffer : Buffer E
  /-- Every edit made before, oldest first. -/
  past : List BufferEdit
  ran : Option Nat

/-- What a command does at a target's turn: any mutations, by target, line and buffer. -/
abbrev Command (E : Type) := Nat → Nat → Buffer E → List TextOp

/-- The loop of `ex_global`'s second pass; `none` when ropey panics. -/
def globalLoop (cmd : Command E) : List Nat → GlobalTargets → Buffer E → List BufferEdit →
    List (Turn E) → Option (Buffer E × List (Turn E))
  | [], _, buffer, _, turns => some (buffer, turns)
  | i :: rest, marks, buffer, past, turns =>
      let turn ran := { target := i, marks := marks, buffer := buffer, past := past, ran := ran }
      match marks.row i with
      | none => globalLoop cmd rest marks buffer past (turns ++ [turn none])
      | some line =>
          if line > buffer.lastLine then
            globalLoop cmd rest marks buffer past (turns ++ [turn none])
          else
            match buffer.performAll (cmd i line buffer) with
            | none => none
            | some after =>
                let (edits, after) := after.takeJumpEdits
                globalLoop cmd rest (edits.foldl (·.shiftBy (i + 1) ·) marks) after
                  (past ++ edits) (turns ++ [turn (some line)])

/-- The first pass of `ex_global`: the lines of `lo..=hi` the pattern selects. -/
def selectTargets (selects : Nat → Bool) (lo hi : Nat) : List Nat :=
  (List.range' lo (hi + 1 - lo)).filter selects

/-- The two passes of `ex_global`: mark the selected lines, then run the command on each. -/
def exGlobal (selects : Nat → Bool) (lo hi : Nat) (cmd : Command E) (buffer : Buffer E) :
    Option (Buffer E × List (Turn E)) :=
  let marks := GlobalTargets.new (selectTargets selects lo hi)
  globalLoop cmd (List.range marks.len) marks buffer.takeJumpEdits.2 [] []

/-! ### The rule, one line at a time -/

/-- Where the mark rule takes the start of a line. -/
def ride (edit : BufferEdit) (row : Nat) : Option Nat :=
  (shiftPoint (row, 0) edit.startPoint edit.oldEndPoint edit.newEndPoint).map (·.1)

/-- Where a line stands after edits, the rule taken edit by edit; `none` once it was deleted. -/
def fate : List BufferEdit → Nat → Option Nat
  | [], row => some row
  | edit :: edits, row => (ride edit row).bind (fate edits)

theorem fate_append (edits later : List BufferEdit) (row : Nat) :
    fate (edits ++ later) row = (fate edits row).bind (fate later) := by
  induction edits generalizing row with
  | nil => rfl
  | cons edit edits ih =>
      rw [List.cons_append, fate, fate, Option.bind_assoc]
      congr 1
      funext next
      exact ih next

/-- The three places of an edit: it starts no later than it ends, before and after. -/
structure Forward (edit : BufferEdit) : Prop where
  old : ¬ Point.before edit.oldEndPoint edit.startPoint
  new : edit.startPoint.1 ≤ edit.newEndPoint.1

/-! ### What one edit does to a row -/

/-- The edit deletes the line: it runs from at or before its start past its end. -/
def Swallows (edit : BufferEdit) (row : Nat) : Prop :=
  ¬ Point.before (row, 0) edit.startPoint ∧ Point.before (row, 0) edit.oldEndPoint ∧
    edit.oldEndPoint.1 > row

instance (edit : BufferEdit) (row : Nat) : Decidable (Swallows edit row) := by
  unfold Swallows
  infer_instance

/-- Where a row goes, deleted or not. -/
def slide (edit : BufferEdit) (row : Nat) : Nat :=
  if Point.before (row, 0) edit.startPoint then row
  else if Point.before (row, 0) edit.oldEndPoint then edit.startPoint.1
  else row + edit.newEndPoint.1 - edit.oldEndPoint.1

theorem ride_eq (edit : BufferEdit) (row : Nat) :
    ride edit row = if Swallows edit row then none else some (slide edit row) := by
  unfold ride shiftPoint slide Swallows
  by_cases ahead : Point.before (row, 0) edit.startPoint
  · simp [ahead]
  · by_cases inside : Point.before (row, 0) edit.oldEndPoint
    · by_cases gone : edit.oldEndPoint.1 > row <;> simp [ahead, inside, gone]
    · simp [ahead, inside]

theorem before_row {row : Nat} {place : Point} :
    Point.before (row, 0) place ↔ row < place.1 ∨ (row = place.1 ∧ 0 < place.2) := Iff.rfl

variable {edit : BufferEdit} {i start stop : Nat} {buffer' : Buffer E} {cmd : Command E}
  {marks : GlobalTargets} {past : List BufferEdit} {targets : List Nat} {turns : List (Turn E)}

/-- Rows keep their order across an edit. -/
theorem slide_mono (forward : Forward edit) {row row' : Nat} (ordered : row ≤ row') :
    slide edit row ≤ slide edit row' := by
  have old := forward.old
  have new := forward.new
  unfold slide
  simp only [before_row]
  unfold Point.before at old
  split
  · split
    · exact ordered
    · split <;> omega
  · split
    · split
      · omega
      · split <;> omega
    · split
      · omega
      · split
        · omega
        · omega

/-! ### What one edit does to the targets -/

/-- In a partitioned slice the partition point separates. -/
theorem lt_partitionPoint {α : Type} {p : α → Bool} {slice : List α}
    (partitioned : slice.Pairwise fun first second => p second → p first)
    (inside : i < slice.length) : i < partitionPoint p slice ↔ p slice[i] := by
  induction slice generalizing i with
  | nil => cases inside
  | cons first rest ih =>
      rcases List.pairwise_cons.1 partitioned with ⟨heads, tails⟩
      unfold partitionPoint
      by_cases holds : p first
      · rw [List.takeWhile_cons_of_pos holds, List.length_cons]
        cases i with
        | zero => simp [holds]
        | succ i =>
            rw [List.getElem_cons_succ, Nat.succ_lt_succ_iff]
            exact ih tails (Nat.lt_of_succ_lt_succ inside)
      · rw [List.takeWhile_cons_of_neg holds, List.length_nil]
        constructor
        · intro below
          cases below
        · intro here
          cases i with
          | zero => exact absurd here holds
          | succ i =>
              rw [List.getElem_cons_succ] at here
              exact absurd (heads _ (List.getElem_mem _) here) holds

namespace GlobalTargets

/-- The targets from `next` on are sorted, and each stands for the line it is told. -/
structure Tracks (targets : GlobalTargets) (next : Nat) (lines : List (Option Nat)) : Prop where
  rows_length : targets.rows.length = lines.length
  alive_length : targets.alive.length = lines.length
  sorted : (targets.rows.drop next).Pairwise (· ≤ ·)
  nonneg : ∀ r ∈ targets.rows.drop next, 0 ≤ r + targets.base
  row_eq : ∀ i, next ≤ i → targets.row i = lines[i]?.join

theorem shift_rows_length (targets : GlobalTargets) (next : Nat) (edit : BufferEdit) :
    (targets.shiftBy next edit).rows.length = targets.rows.length := by
  unfold shiftBy shift
  simp only
  split
  · simp
  · split <;> simp

theorem shift_alive_length (targets : GlobalTargets) (next : Nat) (edit : BufferEdit) :
    (targets.shiftBy next edit).alive.length = targets.alive.length := by
  unfold shiftBy shift
  simp only
  split
  · simp
  · split <;> simp

variable {next : Nat} {targets : GlobalTargets} {edit : BufferEdit}

/-- The bounds of the bulk shift are the rule's own cases. -/
theorem lt_bound (place : Point) {i : Nat} {r : Int}
    (sorted : (targets.rows.drop next).Pairwise (· ≤ ·)) (later : next ≤ i)
    (found : targets.rows[i]? = some r) :
    i < next + partitionPoint (fun r => decide (Point.before (targets.pos r) place))
        (targets.rows.drop next) ↔ Point.before (targets.pos r) place := by
  have inside := (List.getElem?_eq_some_iff.1 found).1
  have partitioned : (targets.rows.drop next).Pairwise fun first second =>
      decide (Point.before (targets.pos second) place) →
        decide (Point.before (targets.pos first) place) := by
    apply sorted.imp
    intro first second ordered
    simp only [decide_eq_true_eq, pos, before_row]
    omega
  have shorter : i - next < (targets.rows.drop next).length := by
    rw [List.length_drop]
    omega
  have separated := lt_partitionPoint partitioned shorter
  have same : (targets.rows.drop next)[i - next] = r := by
    apply Option.some.inj
    rw [← List.getElem?_eq_getElem shorter, List.getElem?_drop, ← found]
    congr 1
    omega
  rw [same, decide_eq_true_eq] at separated
  rw [← separated]
  omega

theorem before_old (forward : Forward edit) {row : Nat}
    (ahead : Point.before (row, 0) edit.startPoint) : Point.before (row, 0) edit.oldEndPoint := by
  have old := forward.old
  unfold Point.before at old
  simp only [before_row] at ahead ⊢
  omega

/-- A target's row goes where its line goes, and dies when the line is deleted. -/
theorem shift_getElem {i : Nat} {r : Int} (forward : Forward edit)
    (sorted : (targets.rows.drop next).Pairwise (· ≤ ·)) (later : next ≤ i)
    (found : targets.rows[i]? = some r) (nonneg : 0 ≤ r + targets.base) :
    (∃ r', (targets.shiftBy next edit).rows[i]? = some r' ∧
      r' + (targets.shiftBy next edit).base = (slide edit (r + targets.base).toNat : Nat)) ∧
    (targets.shiftBy next edit).alive[i]? = targets.alive[i]?.map fun alive =>
      if Swallows edit (r + targets.base).toNat then false else alive := by
  have isPos : targets.pos r = ((r + targets.base).toNat, 0) := rfl
  have low := lt_bound edit.startPoint sorted later found
  have middle := lt_bound edit.oldEndPoint sorted later found
  unfold shiftBy shift
  simp only
  generalize next + partitionPoint (fun r => decide (Point.before (targets.pos r) edit.startPoint))
    (targets.rows.drop next) = lo at low ⊢
  generalize next + partitionPoint
    (fun r => decide (Point.before (targets.pos r) edit.oldEndPoint))
    (targets.rows.drop next) = mid at middle ⊢
  rw [isPos] at low middle
  constructor
  · unfold slide
    by_cases ahead : Point.before ((r + targets.base).toNat, 0) edit.startPoint
    · -- Before the edit: the row stays, and the shared base with it.
      have under := low.2 ahead
      have under' := middle.2 (before_old forward ahead)
      rw [if_pos ahead]
      have stays : ¬ lo ≤ i := by omega
      have stays' : ¬ mid ≤ i := by omega
      split
      · exact ⟨r, by simp [found, stays], by simp only; omega⟩
      · split
        · omega
        · exact ⟨r, by simp [found, stays, stays'], by simp only; omega⟩
    · have above : lo ≤ i := Nat.not_lt.1 fun under => ahead (low.1 under)
      rw [if_neg ahead]
      by_cases inside : Point.before ((r + targets.base).toNat, 0) edit.oldEndPoint
      · -- Inside the replaced span: onto the edit's start.
        have under := middle.2 inside
        have stays' : ¬ mid ≤ i := by omega
        rw [if_pos inside]
        split
        · exact ⟨edit.startPoint.1 - targets.base, by simp [found, above, under],
            by simp only; omega⟩
        · split
          · omega
          · exact ⟨edit.startPoint.1 - targets.base, by simp [found, above, under, stays'],
              by simp only; omega⟩
      · -- Past it: with the rest, by the base when nothing stays behind.
        have past : mid ≤ i := Nat.not_lt.1 fun under => inside (middle.1 under)
        have notUnder : ¬ i < mid := by omega
        have below : edit.oldEndPoint.1 ≤ (r + targets.base).toNat := by
          simp only [before_row] at inside
          omega
        rw [if_neg inside]
        split
        · exact ⟨r, by simp [found, notUnder], by simp only; omega⟩
        · split
          · exact ⟨r, by simp [found, notUnder], by simp only; omega⟩
          · exact ⟨r + ((edit.newEndPoint.1 : Int) - edit.oldEndPoint.1),
              by simp [found, notUnder, past], by simp only; omega⟩
  · have swallowed : (lo ≤ i ∧ i < mid ∧ edit.oldEndPoint.1 > (r + targets.base).toNat) ↔
        Swallows edit (r + targets.base).toNat := by
      unfold Swallows
      rw [← low, ← middle, Nat.not_lt]
    have atIndex : ∀ alive : Bool,
        (if lo ≤ i ∧ i < mid ∧ edit.oldEndPoint.1 > (targets.pos (targets.rows[i]?.getD 0)).1
          then false else alive) =
        if Swallows edit (r + targets.base).toNat then false else alive := by
      intro alive
      rw [found, Option.getD_some, isPos]
      simp only [swallowed]
    split
    · rw [List.getElem?_mapIdx]
      simp only [atIndex]
    · split
      · rw [List.getElem?_mapIdx]
        simp only [atIndex]
      · rw [List.getElem?_mapIdx]
        simp only [atIndex]

/-- **One edit keeps the targets sorted, and tells each what the mark rule says.** -/
theorem Tracks.shift {lines : List (Option Nat)} (tracks : Tracks targets next lines)
    (forward : Forward edit) :
    Tracks (targets.shiftBy next edit) next (lines.map (·.bind (ride edit))) := by
  have moved : ∀ i r, next ≤ i → targets.rows[i]? = some r → 0 ≤ r + targets.base := by
    intro i r later found
    apply tracks.nonneg
    apply List.mem_iff_getElem?.2
    exact ⟨i - next, by rw [List.getElem?_drop, Nat.add_sub_cancel' later]; exact found⟩
  have slid : ∀ k r', (targets.shiftBy next edit).rows[next + k]? = some r' →
      ∃ r, targets.rows[next + k]? = some r ∧
        r' + (targets.shiftBy next edit).base = (slide edit (r + targets.base).toNat : Nat) := by
    intro k r' found
    have inside := (List.getElem?_eq_some_iff.1 found).1
    rw [shift_rows_length] at inside
    have old := List.getElem?_eq_getElem inside
    have later : next ≤ next + k := Nat.le_add_right _ _
    rcases (shift_getElem forward tracks.sorted later old (moved _ _ later old)).1 with
      ⟨r'', found', place⟩
    rw [found] at found'
    cases found'
    exact ⟨_, old, place⟩
  constructor
  · rw [shift_rows_length, List.length_map, tracks.rows_length]
  · rw [shift_alive_length, List.length_map, tracks.alive_length]
  · apply List.pairwise_iff_getElem.2
    intro i j hi hj ordered
    have first := List.getElem?_eq_getElem hi
    have second := List.getElem?_eq_getElem hj
    rw [List.getElem?_drop] at first second
    rcases slid _ _ first with ⟨r, oldFirst, placeFirst⟩
    rcases slid _ _ second with ⟨r', oldSecond, placeSecond⟩
    have sorted := List.pairwise_iff_getElem.1 tracks.sorted i j
    have inRange : j < (targets.rows.drop next).length := by
      have short := (List.getElem?_eq_some_iff.1 oldSecond).1
      rw [List.length_drop]
      omega
    have le := sorted (by omega) inRange ordered
    have isFirst : (targets.rows.drop next)[i] = r := by
      apply Option.some.inj
      rw [← List.getElem?_eq_getElem, List.getElem?_drop, oldFirst]
    have isSecond : (targets.rows.drop next)[j] = r' := by
      apply Option.some.inj
      rw [← List.getElem?_eq_getElem, List.getElem?_drop, oldSecond]
    rw [isFirst, isSecond] at le
    have mono := slide_mono forward
      (show (r + targets.base).toNat ≤ (r' + targets.base).toNat by omega)
    omega
  · intro r' member
    rcases List.mem_iff_getElem?.1 member with ⟨k, found⟩
    rw [List.getElem?_drop] at found
    rcases slid k r' found with ⟨r, -, place⟩
    omega
  · intro i later
    by_cases inside : i < targets.rows.length
    · have old := List.getElem?_eq_getElem inside
      rcases shift_getElem forward tracks.sorted later old (moved _ _ later old) with
        ⟨⟨r', found, place⟩, lives⟩
      have told := tracks.row_eq i later
      unfold row at told ⊢
      rw [lives, found]
      rw [old] at told
      have isRow : ((targets.shiftBy next edit).pos r').1 =
          slide edit (targets.rows[i] + targets.base).toNat := by
        simp only [pos]
        omega
      rw [List.getElem?_map]
      have inLines : i < lines.length := tracks.rows_length ▸ inside
      have inAlive : i < targets.alive.length := by
        rw [tracks.alive_length]
        exact inLines
      rw [List.getElem?_eq_getElem inLines] at told ⊢
      rw [List.getElem?_eq_getElem inAlive] at told ⊢
      simp only [Option.getD_some, Option.map_some, Option.join_some] at told ⊢
      rw [← told, isRow]
      cases targets.alive[i] with
      | false => simp
      | true =>
          simp only [if_true, Option.bind_some, ride_eq]
          have isPos : (targets.pos targets.rows[i]).1 =
            (targets.rows[i] + targets.base).toNat := rfl
          rw [isPos]
          by_cases gone : Swallows edit (targets.rows[i] + targets.base).toNat <;> simp [gone]
    · have noRow : (targets.shiftBy next edit).rows[i]? = none := by
        apply List.getElem?_eq_none
        rw [shift_rows_length]
        omega
      have noLine : lines[i]? = none := by
        apply List.getElem?_eq_none
        rw [← tracks.rows_length]
        omega
      simp [row, noRow, noLine]

end GlobalTargets

/-! ### Every recorded edit goes forward -/

theorem Point.before_irrefl (place : Point) : ¬ Point.before place place := by
  unfold Point.before
  omega

/-- In one text, a later offset is at no earlier place. -/
theorem point_forward (front old back : Text) :
    ¬ Point.before (point (front ++ old ++ back) (size front + size old))
      (point (front ++ old ++ back) (size front)) := by
  have start : point (front ++ old ++ back) (size front) =
      walk (0, 0) front (old ++ back).head? := by
    rw [List.append_assoc, point_append]
  have stop : point (front ++ old ++ back) (size front + size old) =
      walk (0, 0) (front ++ old) back.head? := by
    rw [← size_append, point_append]
  have ahead : (old ++ back).head? = old.head?.or back.head? := by
    cases old <;> rfl
  rw [start, stop, walk_append, ahead]
  have onwards := walk_forward (walk (0, 0) front (old.head?.or back.head?)) old back.head?
  unfold Point.before
  omega

/-- The end of what is put in is on no earlier row than its start. -/
theorem point_row_le {text text' new : Text} (some_text : new ≠ [])
    (spliced : splice text start stop new = some text') :
    (point text start).1 ≤ (point text' (start + size new)).1 := by
  rcases splice_eq_some.1 spliced with ⟨front, old, back, rfl, rfl, -, rfl⟩
  rw [List.append_assoc, point_append, ← size_append, point_append]
  exact walk_row_le (0, 0) front some_text _ _

/-- What a mutation does to the jump journal: nothing, or one edit that goes forward. -/
def Recorded (buffer buffer' : Buffer E) : Prop :=
  buffer'.jumpEdits = buffer.jumpEdits ∨
    ∃ edit, Forward edit ∧ buffer'.jumpEdits = buffer.jumpEdits ++ [edit]

theorem insert_recorded {buffer : Buffer E} {byte : Nat} {s : Text}
    (inserted : buffer.insert byte s = some buffer') : Recorded buffer buffer' := by
  rcases Buffer.insert_cases inserted with ⟨-, same⟩ | ⟨something, text, spliced, rfl⟩
  · exact Or.inl (congrArg Buffer.jumpEdits same)
  · right
    refine ⟨_, ?_, rfl⟩
    constructor
    · exact Point.before_irrefl _
    · exact point_row_le something spliced

theorem remove_recorded {buffer : Buffer E} (removed : buffer.remove start stop = some buffer') :
    Recorded buffer buffer' := by
  rcases Buffer.remove_cases removed with ⟨-, same⟩ | ⟨-, text, spliced, rfl⟩
  · exact Or.inl (congrArg Buffer.jumpEdits same)
  · right
    refine ⟨_, ?_, rfl⟩
    rcases splice_eq_some.1 spliced with ⟨front, old, back, whole, rfl, rfl, -⟩
    constructor
    · simp only [whole]
      exact point_forward front old back
    · exact Nat.le_refl _

theorem replace_recorded {buffer : Buffer E} {s : Text}
    (replaced : buffer.replace start stop s = some buffer') : Recorded buffer buffer' := by
  rcases Buffer.replace_cases replaced with ⟨-, -, same⟩ | ⟨-, -, inserted⟩ | ⟨-, -, removed⟩ |
    ⟨-, something, text, spliced, rfl⟩
  · exact Or.inl (congrArg Buffer.jumpEdits same)
  · exact insert_recorded inserted
  · exact remove_recorded removed
  · right
    refine ⟨_, ?_, rfl⟩
    rcases splice_eq_some.1 spliced with ⟨front, old, back, whole, rfl, rfl, -⟩
    constructor
    · simp only [whole]
      exact point_forward front old back
    · exact point_row_le something spliced

theorem normalize_recorded {buffer : Buffer E} (normalized : buffer.normalize = some buffer') :
    Recorded buffer buffer' := by
  rcases Buffer.normalize_cases normalized with same | ⟨after, span, inserted, rfl⟩
  · exact Or.inl (congrArg Buffer.jumpEdits same)
  · have recorded : Recorded buffer after := insert_recorded inserted
    exact recorded

theorem perform_recorded {buffer : Buffer E} {op : TextOp}
    (performed : buffer.perform op = some buffer') : Recorded buffer buffer' := by
  cases op with
  | insert byte s => exact insert_recorded performed
  | remove start stop => exact remove_recorded performed
  | replace start stop s => exact replace_recorded performed
  | normalize => exact normalize_recorded performed

/-- Whatever a command does, its edits all go forward. -/
theorem performAll_forward {buffer : Buffer E} {ops : List TextOp}
    (performed : buffer.performAll ops = some buffer')
    (before : ∀ edit ∈ buffer.jumpEdits, Forward edit) :
    ∀ edit ∈ buffer'.jumpEdits, Forward edit := by
  induction ops generalizing buffer with
  | nil =>
      cases performed
      exact before
  | cons op ops ih =>
      rcases Option.bind_eq_some_iff.1 performed with ⟨middle, first, rest⟩
      apply ih rest
      rcases perform_recorded first with same | ⟨edit, forward, journaled⟩
      · rw [same]
        exact before
      · rw [journaled]
        intro other member
        rcases List.mem_append.1 member with old | new
        · exact before other old
        · rw [List.mem_singleton.1 new]
          exact forward

/-! ### Lines that come together -/

/-- The edit starts inside line `upper` and brings line `lower` onto it. -/
def Joins (edit : BufferEdit) (upper lower : Nat) : Prop :=
  edit.startPoint.1 = upper ∧ 0 < edit.startPoint.2 ∧
    ride edit upper = some upper ∧ ride edit lower = some upper

/-- One edit brings two lines onto one row only by joining the lower to the upper. -/
theorem ride_joins (forward : Forward edit) {x y r : Nat} (below : x < y)
    (first : ride edit x = some r) (second : ride edit y = some r) : Joins edit x y := by
  have same := first
  have same' := second
  rw [ride_eq] at first second
  split at first
  · cases first
  · next lives =>
      split at second
      · cases second
      · next lives' =>
          have old := forward.old
          have new := forward.new
          unfold Swallows at lives lives'
          simp only [Option.some.injEq, slide, before_row] at first second lives lives'
          unfold Point.before at old
          have place : x = edit.startPoint.1 ∧ 0 < edit.startPoint.2 ∧ r = x := by
            split at first <;> split at second <;> try omega
            all_goals split at second <;> try omega
            all_goals split at first <;> omega
          rcases place with ⟨rfl, some_bytes, rfl⟩
          exact ⟨rfl, some_bytes, same, same'⟩

/-- **Two lines stand on one row only if an edit joined them.** -/
theorem fate_meets {history : List BufferEdit} (forward : ∀ edit ∈ history, Forward edit)
    {x y r : Nat} (below : x < y) (first : fate history x = some r)
    (second : fate history y = some r) :
    ∃ front edit back upper lower, history = front ++ edit :: back ∧
      fate front x = some upper ∧ fate front y = some lower ∧ Joins edit upper lower := by
  induction history generalizing x y with
  | nil =>
      cases first
      cases second
      exact absurd below (Nat.lt_irrefl _)
  | cons edit history ih =>
      rcases Option.bind_eq_some_iff.1 first with ⟨x', rides, restFirst⟩
      rcases Option.bind_eq_some_iff.1 second with ⟨y', rides', restSecond⟩
      have here := forward edit (List.mem_cons_self ..)
      by_cases same : x' = y'
      · subst same
        exact ⟨[], edit, history, x, y, rfl, rfl, rfl, ride_joins here below rides rides'⟩
      · have ordered : x' ≤ y' := by
          have isFirst := rides
          have isSecond := rides'
          rw [ride_eq] at isFirst isSecond
          split at isFirst
          · cases isFirst
          · split at isSecond
            · cases isSecond
            · cases isFirst
              cases isSecond
              exact slide_mono here (Nat.le_of_lt below)
        rcases ih (fun other member => forward other (List.mem_cons_of_mem _ member))
          (Nat.lt_of_le_of_ne ordered same) restFirst restSecond with
          ⟨front, join, back, upper, lower, rfl, before, before', joins⟩
        refine ⟨edit :: front, join, back, upper, lower, rfl, ?_, ?_, joins⟩
        · rw [fate, rides]
          exact before
        · rw [fate, rides']
          exact before'

/-! ### The run, turn by turn -/

/-- At its turn, a target and every later one are told what the rule says of their lines. -/
structure Turn.Kept (targets : List Nat) (turn : Turn E) : Prop where
  forward : ∀ edit ∈ turn.past, Forward edit
  sorted : (turn.marks.rows.drop turn.target).Pairwise (· ≤ ·)
  row_eq : ∀ i, turn.target ≤ i → turn.marks.row i = targets[i]?.bind (fate turn.past)
  ran_eq : turn.ran =
    (targets[turn.target]?.bind (fate turn.past)).filter fun line => line ≤ turn.buffer.lastLine

/-- What a turn leaves for the next: the command's edits, when it ran. -/
def Turn.Leaves (cmd : Command E) (turn : Turn E) (past : List BufferEdit) (buffer : Buffer E) :
    Prop :=
  match turn.ran with
  | none => past = turn.past ∧ buffer = turn.buffer
  | some line =>
      ∃ after, turn.buffer.performAll (cmd turn.target line turn.buffer) = some after ∧
        past = turn.past ++ after.jumpEdits ∧ buffer = after.takeJumpEdits.2

/-- One turn starts where the last one ended. -/
def Turn.Then (cmd : Command E) (turn next : Turn E) : Prop :=
  turn.Leaves cmd next.past next.buffer

namespace GlobalTargets

variable {lines : List (Option Nat)} {targets : GlobalTargets}

theorem Tracks.later {next : Nat} (tracks : Tracks targets next lines) :
    Tracks targets (next + 1) lines := by
  have fewer : (targets.rows.drop (next + 1)).Sublist (targets.rows.drop next) :=
    List.drop_sublist_drop_left _ (Nat.le_succ next)
  constructor
  · exact tracks.rows_length
  · exact tracks.alive_length
  · exact List.Pairwise.sublist fewer tracks.sorted
  · intro r member
    exact tracks.nonneg r (fewer.subset member)
  · intro i later
    exact tracks.row_eq i (Nat.le_of_succ_le later)

theorem Tracks.shiftAll {next : Nat} (tracks : Tracks targets next lines)
    {edits : List BufferEdit} (forward : ∀ edit ∈ edits, Forward edit) :
    Tracks (edits.foldl (·.shiftBy next ·) targets) next (lines.map (·.bind (fate edits))) := by
  induction edits generalizing targets lines with
  | nil =>
      have same : lines.map (·.bind (fate [])) = lines := by
        have ident : (fun line : Option Nat => line.bind (fate [])) = id := by
          funext line
          cases line <;> rfl
        rw [ident, List.map_id]
      rw [same]
      exact tracks
  | cons edit edits ih =>
      have moved := ih (tracks.shift (forward edit (List.mem_cons_self ..)))
        (fun other member => forward other (List.mem_cons_of_mem _ member))
      rw [List.map_map] at moved
      have same : (fun line : Option Nat => line.bind (fate (edit :: edits))) =
          (·.bind (fate edits)) ∘ (·.bind (ride edit)) := by
        funext line
        cases line <;> rfl
      rw [same]
      exact moved

/-- Fresh targets, in order. -/
theorem tracks_new {lines : List Nat} (sorted : lines.Pairwise (· < ·)) :
    Tracks (new lines) 0 (lines.map some) := by
  constructor
  · simp [new]
  · simp [new]
  · rw [List.drop_zero]
    apply List.pairwise_map.2
    apply sorted.imp
    intro first second below
    exact Int.ofNat_le.2 (Nat.le_of_lt below)
  · intro r member
    rw [List.drop_zero] at member
    rcases List.mem_map.1 member with ⟨line, -, rfl⟩
    simp [new]
  · intro i _
    unfold row
    by_cases inside : i < lines.length
    · simp [new, pos, inside]
    · simp [new, inside]

end GlobalTargets

/-- Where the loop stands before turn `i`. -/
structure Standing (targets : List Nat) (cmd : Command E) (start : Buffer E) (i : Nat)
    (marks : GlobalTargets) (buffer : Buffer E) (past : List BufferEdit) (turns : List (Turn E)) :
    Prop where
  tracks : marks.Tracks i (targets.map (fate past))
  forward : ∀ edit ∈ past, Forward edit
  drained : buffer.jumpEdits = []
  order : turns.map (·.target) = List.range i
  kept : ∀ turn ∈ turns, turn.Kept targets
  chain : turns.IsChain (Turn.Then cmd)
  last : ∀ turn, turns.getLast? = some turn → turn.Leaves cmd past buffer
  fresh : turns = [] → past = [] ∧ buffer = start
  first : ∀ turn, turns.head? = some turn → turn.past = [] ∧ turn.buffer = start

theorem getElem?_fates (targets : List Nat) (past : List BufferEdit) (i : Nat) :
    (targets.map (fate past))[i]?.join = targets[i]?.bind (fate past) := by
  rw [List.getElem?_map]
  cases targets[i]? <;> rfl

/-- A turn adds itself, and what it leaves. -/
theorem Standing.turn {start : Buffer E} {buffer : Buffer E}
    (standing : Standing targets cmd start i marks buffer past turns) {ran : Option Nat}
    (rule : ran = (marks.row i).filter fun line => line ≤ buffer.lastLine)
    {marks' : GlobalTargets} {past' : List BufferEdit}
    (tracks : marks'.Tracks (i + 1) (targets.map (fate past')))
    (forward : ∀ edit ∈ past', Forward edit) (drained : buffer'.jumpEdits = [])
    (leaves : (⟨i, marks, buffer, past, ran⟩ : Turn E).Leaves cmd past' buffer') :
    Standing targets cmd start (i + 1) marks' buffer' past'
      (turns ++ [⟨i, marks, buffer, past, ran⟩]) := by
  have told : ∀ j, i ≤ j → marks.row j = targets[j]?.bind (fate past) := by
    intro j later
    rw [standing.tracks.row_eq j later, getElem?_fates]
  constructor
  · exact tracks
  · exact forward
  · exact drained
  · rw [List.map_append, standing.order, List.range_succ]
    rfl
  · intro turn member
    rcases List.mem_append.1 member with old | new
    · exact standing.kept turn old
    · rw [List.mem_singleton.1 new]
      constructor
      · exact standing.forward
      · exact standing.tracks.sorted
      · exact told
      · simp only [rule, told i (Nat.le_refl i)]
  · apply List.IsChain.append standing.chain (List.isChain_singleton _)
    intro turn last next first
    cases first
    exact standing.last turn last
  · intro turn last
    rw [List.getLast?_concat] at last
    cases last
    exact leaves
  · intro nothing
    simp at nothing
  · intro turn head
    cases turns with
    | nil =>
        cases head
        exact standing.fresh rfl
    | cons first rest => exact standing.first turn head

/-- A turn on which the command does not run leaves all as it was. -/
theorem Standing.pass {start : Buffer E} {buffer : Buffer E}
    (standing : Standing targets cmd start i marks buffer past turns)
    (rule : none = (marks.row i).filter fun line => line ≤ buffer.lastLine) :
    Standing targets cmd start (i + 1) marks buffer past
      (turns ++ [⟨i, marks, buffer, past, none⟩]) :=
  standing.turn rule standing.tracks.later standing.forward standing.drained ⟨rfl, rfl⟩

/-- Every turn from a standing loop on is kept. -/
theorem globalLoop_kept {start : Buffer E} {count : Nat} {buffer after : Buffer E}
    {turns' : List (Turn E)} (standing : Standing targets cmd start i marks buffer past turns)
    (ran : globalLoop cmd (List.range' i count) marks buffer past turns = some (after, turns')) :
    ∃ marks' past', Standing targets cmd start (i + count) marks' after past' turns' := by
  induction count generalizing i marks buffer past turns with
  | zero =>
      cases ran
      exact ⟨marks, past, standing⟩
  | succ count ih =>
      rw [List.range'_succ, globalLoop] at ran
      simp only at ran
      have shorter : i + (count + 1) = i + 1 + count := by omega
      rw [shorter]
      split at ran
      · next gone =>
          have rule : none = (marks.row i).filter fun line => line ≤ buffer.lastLine := by
            rw [gone]
            rfl
          exact ih (standing.pass rule) ran
      · next line here =>
          split at ran
          · next beyond =>
              have rule : none = (marks.row i).filter fun line => line ≤ buffer.lastLine := by
                rw [here, Option.filter_some, if_neg (by simpa using beyond)]
              exact ih (standing.pass rule) ran
          · next inside =>
              split at ran
              · cases ran
              · next middle performed =>
                  have forward : ∀ edit ∈ middle.jumpEdits, Forward edit := by
                    apply performAll_forward performed
                    rw [standing.drained]
                    intro edit member
                    cases member
                  have rule : some line =
                      (marks.row i).filter fun line => line ≤ buffer.lastLine := by
                    rw [here, Option.filter_some, if_pos (by simpa using inside)]
                  have moved := standing.tracks.later.shiftAll forward
                  have whole : (targets.map (fate past)).map (·.bind (fate middle.jumpEdits)) =
                      targets.map (fate (past ++ middle.jumpEdits)) := by
                    rw [List.map_map]
                    apply List.map_congr_left
                    intro target _
                    exact (fate_append past middle.jumpEdits target).symm
                  rw [whole] at moved
                  have onwards : ∀ edit ∈ past ++ middle.jumpEdits, Forward edit := by
                    intro edit member
                    rcases List.mem_append.1 member with old | new
                    · exact standing.forward edit old
                    · exact forward edit new
                  exact ih (standing.turn rule moved onwards rfl ⟨middle, performed, rfl, rfl⟩) ran

theorem selectTargets_sorted (selects : Nat → Bool) (lo hi : Nat) :
    (selectTargets selects lo hi).Pairwise (· < ·) := by
  unfold selectTargets
  exact List.Pairwise.filter _ List.pairwise_lt_range'

/-! ### The run as a whole -/

/-- **`:global` gives every target its one turn, in order.**  At each turn the rows still to come
are sorted and are what the mark rule, edit by edit, says of their lines; the command runs exactly
when the line was not deleted and is a line of the buffer; and where it runs on a row that is now
another line's too, an edit started inside the upper of the two and brought the lower onto it.  What
the last turn leaves is the buffer that the command leaves. -/
theorem global_visits_targets {selects : Nat → Bool} {lo hi : Nat} {cmd : Command E}
    {buffer after : Buffer E} {turns : List (Turn E)}
    (ran : exGlobal selects lo hi cmd buffer = some (after, turns)) :
    turns.map (·.target) = List.range (selectTargets selects lo hi).length ∧
    (∀ turn, turns.head? = some turn → turn.past = [] ∧ turn.buffer = buffer.takeJumpEdits.2) ∧
    turns.IsChain (Turn.Then cmd) ∧
    (turns = [] → after = buffer.takeJumpEdits.2) ∧
    (∀ turn, turns.getLast? = some turn → ∃ past, turn.Leaves cmd past after) ∧
    (∀ turn ∈ turns, turn.Kept (selectTargets selects lo hi)) ∧
    ∀ turn ∈ turns, ∀ target row line, (selectTargets selects lo hi)[turn.target]? = some target →
      turn.ran = some row → line ≠ target → fate turn.past line = some row →
      ∃ front edit back upper lower, turn.past = front ++ edit :: back ∧
        fate front (min line target) = some upper ∧ fate front (max line target) = some lower ∧
        Joins edit upper lower := by
  have start : Standing (selectTargets selects lo hi) cmd buffer.takeJumpEdits.2 0
      (GlobalTargets.new (selectTargets selects lo hi)) buffer.takeJumpEdits.2 [] [] := by
    constructor
    · exact GlobalTargets.tracks_new (selectTargets_sorted selects lo hi)
    · intro edit member
      cases member
    · rfl
    · rfl
    · intro turn member
      cases member
    · exact List.isChain_nil
    · intro turn last
      cases last
    · intro _
      exact ⟨rfl, rfl⟩
    · intro turn first
      cases first
  unfold exGlobal at ran
  simp only [List.range_eq_range'] at ran
  rcases globalLoop_kept start ran with ⟨marks, past, stands⟩
  have count : (GlobalTargets.new (selectTargets selects lo hi)).len =
      (selectTargets selects lo hi).length := by
    simp [GlobalTargets.new, GlobalTargets.len]
  refine ⟨?_, stands.first, stands.chain, fun none_ran => (stands.fresh none_ran).2,
    fun turn last => ⟨past, stands.last turn last⟩, stands.kept, ?_⟩
  · rw [stands.order, Nat.zero_add, count]
  · intro turn member target row line isTarget runs differ here
    have kept := stands.kept turn member
    have there : fate turn.past target = some row := by
      have rule := kept.ran_eq
      rw [runs, isTarget, Option.bind_some] at rule
      exact (Option.filter_eq_some_iff.1 rule.symm).1
    rcases Nat.lt_or_gt_of_ne differ with below | above
    · rw [Nat.min_eq_left (Nat.le_of_lt below), Nat.max_eq_right (Nat.le_of_lt below)]
      exact fate_meets kept.forward below here there
    · rw [Nat.min_eq_right (Nat.le_of_lt above), Nat.max_eq_left (Nat.le_of_lt above)]
      exact fate_meets kept.forward above there here

/-- Lines `x`, `a`, `b`; the first and the last are targets, and the first's command joins the
other two. -/
def joinRun : Option (Buffer Unit × List (Turn Unit)) :=
  exGlobal (fun line => line != 1) 0 2
    (fun target _ _ => if target = 0 then [.remove 3 4] else [])
    (Buffer.ofText ['x', '\n', 'a', '\n', 'b', '\n'])

/-- The one edit of that run. -/
def joinEdit : BufferEdit := ⟨3, 4, 3, (1, 1), (2, 0), (1, 1), []⟩

theorem joinRun_turns : joinRun.map (fun run => run.2.map fun turn => (turn.ran, turn.past)) =
    some [(some 0, []), (some 1, [joinEdit])] := rfl

theorem global_visits_targets_join : ∃ after turns, joinRun = some (after, turns) ∧
    turns.map (·.target) = List.range 2 ∧ turns.map (·.ran) = [some 0, some 1] := by
  cases ran : joinRun with
  | none => cases ran
  | some run =>
      obtain ⟨after, turns⟩ := run
      have ended := joinRun_turns
      rw [ran, Option.map_some, Option.some.injEq] at ended
      refine ⟨after, turns, rfl, (global_visits_targets ran).1, ?_⟩
      have runs := congrArg (List.map Prod.fst) ended
      rw [List.map_map] at runs
      exact runs

/-- The rule's third case: inside the replaced span, with the line itself kept. -/
def Collapses (edit : BufferEdit) (row : Nat) : Prop :=
  ¬ Point.before (row, 0) edit.startPoint ∧ Point.before (row, 0) edit.oldEndPoint ∧
    ¬ edit.oldEndPoint.1 > row

/-- The command runs on a line that was no target, and onto which nothing collapsed: the target
was moved there by the join. -/
theorem global_runs_on_joined_line : ∃ after turns, joinRun = some (after, turns) ∧
    ∃ turn ∈ turns, turn.ran = some 1 ∧ 1 ∉ selectTargets (fun line => line != 1) 0 2 ∧
      fate turn.past 1 = some 1 ∧ ∀ edit ∈ turn.past, ∀ row, ¬ Collapses edit row := by
  cases ran : joinRun with
  | none => cases ran
  | some run =>
      obtain ⟨after, turns⟩ := run
      have ended := joinRun_turns
      rw [ran, Option.map_some, Option.some.injEq] at ended
      refine ⟨after, turns, rfl, ?_⟩
      have member : (some 1, [joinEdit]) ∈ turns.map fun turn => (turn.ran, turn.past) := by
        rw [ended]
        exact List.mem_cons_of_mem _ (List.mem_cons_self ..)
      rcases List.mem_map.1 member with ⟨turn, inTurns, same⟩
      cases turn with
      | mk target marks buffer past ran =>
          simp only [Prod.mk.injEq] at same
          rcases same with ⟨rfl, rfl⟩
          refine ⟨_, inTurns, rfl, by decide, rfl, ?_⟩
          intro edit isEdit row collapses
          rw [List.mem_singleton.1 isEdit] at collapses
          simp only [Collapses, joinEdit, before_row] at collapses
          omega

end Bemtvi.Core
