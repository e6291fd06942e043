/-
Module: Bemtvi.Core.SearchStepsLaws
Purpose: Search steps over the matches of a whole buffer: where every match starts at a place the cursor
  rests on, `n` and `N` walk them in their order, around the end, with a count as without.
Trusted boundary: none
Main exports: Walked, Steps, starts, matchForwardFrom_eq, matchBackwardBefore_eq, runSearch_eq, steps_around,
  search_steps
-/
import Bemtvi.Core.SearchSteps
import Mathlib.Data.List.Find
import Mathlib.Algebra.Order.Group.Nat

namespace Bemtvi.Core.SearchSteps

/-! ### Numbers in order -/

variable {l : List Nat} {c i m cursor : Nat} {line : Line} {buf : Buffer}

theorem takeWhile_lt (sorted : l.Pairwise (· < ·)) (c : Nat) :
    l.takeWhile (· < c) = l.filter (· < c) := by
  induction l with
  | nil => rfl
  | cons x l ih =>
      obtain ⟨above, sorted⟩ := List.pairwise_cons.1 sorted
      by_cases small : x < c
      · rw [List.takeWhile_cons_of_pos (by simpa using small), List.filter_cons_of_pos (by simpa using small),
          ih sorted]
      · rw [List.takeWhile_cons_of_neg (by simpa using small), List.filter_cons_of_neg (by simpa using small)]
        refine (List.filter_eq_nil_iff.2 fun y member => ?_).symm
        have later := above y member
        simp only [decide_eq_true_eq]
        omega

/-- The number behind one. -/
theorem find_gt (sorted : l.Pairwise (· < ·)) (here : l[i]? = some c) :
    l.find? (c < ·) = l[i + 1]? := by
  induction l generalizing i with
  | nil => cases here
  | cons x l ih =>
      obtain ⟨above, sorted⟩ := List.pairwise_cons.1 sorted
      cases i with
      | zero =>
          rw [List.getElem?_cons_zero, Option.some.injEq] at here
          rw [← here, List.find?_cons_of_neg (by simp), List.getElem?_cons_succ]
          cases l with
          | nil => rfl
          | cons y l =>
              have after := above y (List.mem_cons_self ..)
              rw [List.find?_cons_of_pos (by simpa using after)]
              rfl
      | succ i =>
          rw [List.getElem?_cons_succ] at here
          have after := above c (List.mem_of_getElem? here)
          have before : ¬ c < x := by omega
          rw [List.find?_cons_of_neg (by simpa using before), List.getElem?_cons_succ]
          exact ih sorted here

/-- The numbers before one and behind it. -/
theorem parts_at (sorted : l.Pairwise (· < ·)) (here : l[i]? = some c) :
    l = l.take i ++ c :: l.drop (i + 1) ∧ (∀ x ∈ l.take i, x < c) ∧ ∀ x ∈ l.drop (i + 1), c < x := by
  have parts : l = l.take i ++ c :: l.drop (i + 1) := by
    obtain ⟨inside, same⟩ := List.getElem?_eq_some_iff.1 here
    rw [← same, ← List.drop_eq_getElem_cons inside, List.take_append_drop]
  have sorted' := parts ▸ sorted
  obtain ⟨-, behind, apart⟩ := List.pairwise_append.1 sorted'
  refine ⟨parts, fun x member => apart x member c (List.mem_cons_self ..), ?_⟩
  exact (List.pairwise_cons.1 behind).1

/-- The number before one. -/
theorem last_lt (sorted : l.Pairwise (· < ·)) (here : l[i]? = some c) :
    (l.filter (· < c)).getLast? = if i = 0 then none else l[i - 1]? := by
  obtain ⟨parts, before, behind⟩ := parts_at sorted here
  have front : (l.take i).filter (· < c) = l.take i :=
    List.filter_eq_self.2 fun x member => decide_eq_true (before x member)
  have back : (c :: l.drop (i + 1)).filter (· < c) = [] := by
    refine List.filter_eq_nil_iff.2 fun x member => ?_
    rcases List.mem_cons.1 member with rfl | member
    · simp
    · simpa using Nat.le_of_lt (behind x member)
  conv_lhs => rw [parts]
  rw [List.filter_append, front, back, List.append_nil]
  split
  · next first => rw [first, List.take_zero, List.getLast?_nil]
  · next later =>
      have inside := (List.getElem?_eq_some_iff.1 here).1
      have length : (l.take i).length = i := List.length_take_of_le (Nat.le_of_lt inside)
      rw [List.getLast?_eq_getElem?, length, List.getElem?_take_of_lt (by omega)]

/-- The last number up to one. -/
theorem last_le (sorted : l.Pairwise (· < ·)) (member : c ∈ l) :
    (l.filter (· ≤ c)).getLast? = some c := by
  obtain ⟨i, here⟩ := List.mem_iff_getElem?.1 member
  obtain ⟨parts, before, behind⟩ := parts_at sorted here
  have front : (l.take i).filter (· ≤ c) = l.take i :=
    List.filter_eq_self.2 fun x member => decide_eq_true (Nat.le_of_lt (before x member))
  have back : (l.drop (i + 1)).filter (· ≤ c) = [] := by
    refine List.filter_eq_nil_iff.2 fun x member => ?_
    simpa using behind x member
  conv_lhs => rw [parts]
  rw [List.filter_append, front, List.filter_cons_of_pos (by simp), back, List.getLast?_concat]

/-- The number behind one is the least of those. -/
theorem find_gt_le (sorted : l.Pairwise (· < ·)) {g s : Nat} (found : l.find? (c < ·) = some g)
    (member : s ∈ l) (after : c < s) : g ≤ s := by
  induction l with
  | nil => cases member
  | cons x l ih =>
      obtain ⟨above, sorted⟩ := List.pairwise_cons.1 sorted
      by_cases first : c < x
      · rw [List.find?_cons_of_pos (by simpa using first), Option.some.injEq] at found
        rcases List.mem_cons.1 member with rfl | later
        · exact Nat.le_of_eq found.symm
        · exact found ▸ Nat.le_of_lt (above s later)
      · rw [List.find?_cons_of_neg (by simpa using first)] at found
        rcases List.mem_cons.1 member with rfl | later
        · exact absurd after first
        · exact ih sorted found later

/-! ### Lines -/

/-- A line whose matches the engine walks, each at a place the cursor rests on. -/
structure Walked (line : Line) : Prop where
  some_byte : 0 < line.bytes
  graphemes : line.graphemes.Pairwise (· < ·)
  inside : ∀ g ∈ line.graphemes, g < line.len
  ordered : (line.findAll.map (·.1)).Pairwise (· < ·)
  walks : ∀ col, line.findFrom col = line.findAll.find? fun found => col ≤ found.1
  rests : ∀ found ∈ line.findAll, found.1 ∈ line.graphemes ∨ (line.len = 0 ∧ found.1 = 0)

/-- A buffer of such lines. -/
structure Steps (buf : Buffer) : Prop where
  some_line : buf ≠ []
  walked : ∀ line ∈ buf, Walked line

theorem Walked.rest_lt (walked : Walked line) {rel : Nat}
    (rests : rel ∈ line.graphemes ∨ (line.len = 0 ∧ rel = 0)) : rel < line.bytes := by
  rcases rests with member | ⟨-, rfl⟩
  · exact Nat.lt_of_lt_of_le (walked.inside rel member) (Nat.le_add_right _ _)
  · exact walked.some_byte

theorem lenBytes_cons (line : Line) (buf : Buffer) : lenBytes (line :: buf) = line.bytes + lenBytes buf := by
  rw [lenBytes, List.map_cons, List.sum_cons, ← lenBytes]

theorem lineStart_succ (here : buf[i]? = some line) :
    lineStart buf (i + 1) = lineStart buf i + line.bytes := by
  rw [lineStart, lineStart, List.take_add_one, here, lenBytes, List.map_append, List.sum_append, ← lenBytes]
  rfl

theorem byteToLine_more (first second : Line) (buf : Buffer) (byte : Nat) :
    byteToLine (first :: second :: buf) byte =
      if byte < first.bytes then 0 else byteToLine (second :: buf) (byte - first.bytes) + 1 := by
  rw [byteToLine]
  exact List.cons_ne_nil second buf

theorem lenBytes_append (front back : Buffer) : lenBytes (front ++ back) = lenBytes front + lenBytes back := by
  rw [lenBytes, List.map_append, List.sum_append, ← lenBytes, ← lenBytes]

theorem lineStart_mono (buf : Buffer) {j : Nat} (below : i ≤ j) :
    lineStart buf i ≤ lineStart buf j := by
  obtain ⟨k, rfl⟩ := Nat.exists_eq_add_of_le below
  rw [lineStart, lineStart, List.take_add, lenBytes_append]
  exact Nat.le_add_right _ _

/-- A place of a line is on that line. -/
theorem byteToLine_start {rel : Nat} (here : buf[i]? = some line) (inside : rel < line.bytes) :
    byteToLine buf (lineStart buf i + rel) = i := by
  induction buf generalizing i with
  | nil => cases here
  | cons first buf ih =>
      cases buf with
      | nil =>
          cases i with
          | zero => rfl
          | succ i => cases here
      | cons second buf =>
          cases i with
          | zero =>
              rw [List.getElem?_cons_zero, Option.some.injEq] at here
              rw [lineStart, List.take_zero, byteToLine_more, if_pos]
              simpa [lenBytes, here] using inside
          | succ i =>
              rw [List.getElem?_cons_succ] at here
              have start : lineStart (first :: second :: buf) (i + 1) =
                  first.bytes + lineStart (second :: buf) i := by
                rw [lineStart, List.take_succ_cons, lenBytes_cons, ← lineStart]
              have rest : first.bytes + lineStart (second :: buf) i + rel - first.bytes =
                  lineStart (second :: buf) i + rel := by omega
              rw [start, byteToLine_more, if_neg (by omega), rest, ih here]

/-- Every byte is on a line. -/
theorem exists_line {idx : Nat} (inside : idx < lenBytes buf) :
    ∃ i line rel, buf[i]? = some line ∧ rel < line.bytes ∧ idx = lineStart buf i + rel := by
  induction buf generalizing idx with
  | nil => exact absurd inside (Nat.not_lt_zero idx)
  | cons first buf ih =>
      rw [lenBytes_cons] at inside
      by_cases here : idx < first.bytes
      · exact ⟨0, first, idx, rfl, here, (Nat.zero_add idx).symm⟩
      · obtain ⟨i, line, rel, found, within, same⟩ := @ih (idx - first.bytes) (by omega)
        refine ⟨i + 1, line, rel, found, within, ?_⟩
        rw [lineStart, List.take_succ_cons, lenBytes_cons, ← lineStart]
        omega

theorem lineAt_eq (here : buf[i]? = some line) : lineAt buf i = line := by
  rw [lineAt, here, Option.getD_some]

/-! ### The matches of a buffer -/

/-- Where the matches start, from a byte on. -/
@[grind =]
def starts (base : Nat) : Buffer → List Nat
  | [] => []
  | line :: buf => line.findAll.map (base + ·.1) ++ starts (base + line.bytes) buf

theorem starts_append (base : Nat) (front back : Buffer) :
    starts base (front ++ back) = starts base front ++ starts (base + lenBytes front) back := by
  induction front generalizing base with
  | nil => rfl
  | cons line front ih =>
      rw [List.cons_append, starts, starts, ih, lenBytes_cons, List.append_assoc, Nat.add_assoc]

theorem mem_starts {base : Nat} (walked : ∀ line ∈ buf, Walked line)
    (member : m ∈ starts base buf) : base ≤ m ∧ m < base + lenBytes buf := by
  induction buf generalizing base with
  | nil => cases member
  | cons line buf ih =>
      rw [starts] at member
      rw [lenBytes_cons]
      rcases List.mem_append.1 member with here | later
      · obtain ⟨found, in_line, rfl⟩ := List.mem_map.1 here
        have first := walked line (List.mem_cons_self ..)
        have inside := first.rest_lt (first.rests found in_line)
        omega
      · obtain ⟨after, before⟩ := ih (fun line' member => walked line' (List.mem_cons_of_mem line member)) later
        omega

theorem starts_sorted (walked : ∀ line ∈ buf, Walked line) (base : Nat) :
    (starts base buf).Pairwise (· < ·) := by
  induction buf generalizing base with
  | nil => exact List.Pairwise.nil
  | cons line buf ih =>
      have first := walked line (List.mem_cons_self ..)
      have rest := fun line' member => walked line' (List.mem_cons_of_mem line member)
      rw [starts]
      refine List.pairwise_append.2 ⟨?_, ih rest _, ?_⟩
      · have shifted := first.ordered
        rw [List.pairwise_map] at shifted ⊢
        exact shifted.imp fun less => Nat.add_lt_add_left less base
      · intro m here m' later
        obtain ⟨found, in_line, rfl⟩ := List.mem_map.1 here
        have inside := first.rest_lt (first.rests found in_line)
        have after := (mem_starts rest later).1
        omega

/-- A line among the others. -/
theorem split_line (here : buf[i]? = some line) :
    buf = buf.take i ++ line :: buf.drop (i + 1) ∧ buf.drop i = line :: buf.drop (i + 1) := by
  obtain ⟨inside, same⟩ := List.getElem?_eq_some_iff.1 here
  have back : buf.drop i = line :: buf.drop (i + 1) := by
    rw [← same, ← List.drop_eq_getElem_cons inside]
  refine ⟨?_, back⟩
  rw [← back, List.take_append_drop]

/-- A line ends within the buffer. -/
theorem lineStart_add_le (here : buf[i]? = some line) :
    lineStart buf i + line.bytes ≤ lenBytes buf := by
  have start := lineStart_mono buf (Nat.succ_le_of_lt (List.getElem?_eq_some_iff.1 here).1)
  rw [lineStart_succ here] at start
  have whole : lineStart buf buf.length = lenBytes buf := by rw [lineStart, List.take_length]
  exact whole ▸ start

/-! ### Scans -/

/-- The scan downward: the first match from the place on. -/
theorem forwardScan_eq (walked : ∀ line ∈ buf, Walked line) {base col : Nat}
    (within : ∀ line, buf.head? = some line → col ≤ line.bytes) :
    (forwardScan base col buf).map (·.1) = (starts base buf).find? (base + col ≤ ·) := by
  induction buf generalizing base col with
  | nil => rfl
  | cons line buf ih =>
      have first := walked line (List.mem_cons_self ..)
      have rest := fun line' member => walked line' (List.mem_cons_of_mem line member)
      have in_line : (line.findAll.map (base + ·.1)).find? (base + col ≤ ·) =
          (line.findFrom col).map (base + ·.1) := by
        rw [List.find?_map, first.walks]
        congr 2
        funext found
        simp only [Function.comp_apply, Nat.add_le_add_iff_left]
      rw [forwardScan, starts, List.find?_append, in_line]
      cases found : line.findFrom col with
      | some m => rfl
      | none =>
          have later := @ih rest (base + line.bytes) 0 (fun _ _ => Nat.zero_le _)
          rw [Option.map_none, Option.none_or]
          simp only
          rw [later]
          refine List.find?_congr fun m member => ?_
          have after := (mem_starts rest member).1
          have short := within line rfl
          simp only [decide_eq_decide]
          omega

/-- A place in the buffer or at its end, by a line. -/
theorem exists_start (steps : Steps buf) {start : Nat} (within : start ≤ lenBytes buf) :
    ∃ i line, buf[i]? = some line ∧ byteToLine buf (min start (lastCharIdx buf)) = i ∧
      lineStart buf i ≤ start ∧ start ≤ lineStart buf i + line.bytes := by
  obtain ⟨first, rest, some_line⟩ := List.exists_cons_of_ne_nil steps.some_line
  have some_byte : 0 < lenBytes buf := by
    have walked := steps.walked first (by rw [some_line]; exact List.mem_cons_self ..)
    have bytes := walked.some_byte
    rw [some_line, lenBytes_cons]
    omega
  obtain ⟨i, line, rel, found, inside, same⟩ :=
    @exists_line buf (min start (lastCharIdx buf)) (by rw [lastCharIdx]; omega)
  refine ⟨i, line, found, ?_, ?_, ?_⟩
  · rw [same]
    exact byteToLine_start found inside
  · omega
  · rw [lastCharIdx] at same
    omega

theorem matchForwardFrom_eq (steps : Steps buf) {start : Nat} (within : start ≤ lenBytes buf) :
    (matchForwardFrom buf start).map (·.1) = (starts 0 buf).find? (start ≤ ·) := by
  obtain ⟨i, line, here, on_line, after, before⟩ := exists_start steps within
  obtain ⟨parts, back⟩ := split_line here
  have walked : ∀ line' ∈ buf.drop i, Walked line' := fun line' member =>
    steps.walked line' (List.mem_of_mem_drop member)
  have scan := @forwardScan_eq _ walked (lineStart buf i) (start - lineStart buf i) (by
    intro line' first
    rw [back, List.head?_cons, Option.some.injEq] at first
    rw [← first]
    omega)
  rw [Nat.add_sub_cancel' after] at scan
  have front : (starts 0 (buf.take i)).find? (start ≤ ·) = none := by
    refine List.find?_eq_none.2 fun m member => ?_
    have early := (mem_starts (fun line' member => steps.walked line' (List.mem_of_mem_take member)) member).2
    rw [Nat.zero_add, ← lineStart] at early
    simp only [decide_eq_true_eq]
    omega
  have whole : starts 0 buf = starts 0 (buf.take i) ++ starts (lineStart buf i) (buf.drop i) := by
    conv_lhs => rw [← List.take_append_drop i buf]
    rw [starts_append, Nat.zero_add, ← lineStart]
  rw [whole, List.find?_append, front, Option.none_or, ← scan, matchForwardFrom, on_line]

/-- The matches of a line before a column: its last. -/
theorem lastBefore_eq (walked : Walked line) (base cap : Nat) :
    (line.lastBefore cap).map (base + ·.1) =
      ((line.findAll.map (base + ·.1)).filter (· < base + cap)).getLast? := by
  have shifted : (line.findAll.map (base + ·.1)).Pairwise (· < ·) := by
    have ordered := walked.ordered
    rw [List.pairwise_map] at ordered ⊢
    exact ordered.imp fun less => Nat.add_lt_add_left less base
  rw [Line.lastBefore, ← takeWhile_lt shifted, List.takeWhile_map, List.getLast?_map]
  congr 3
  funext found
  simp only [Function.comp_apply, Nat.add_lt_add_iff_left]

/-- The scan upward: the last match of the lines above. -/
theorem backwardScan_eq (walked : ∀ line ∈ buf, Walked line) {n : Nat} (within : n ≤ buf.length) :
    (backwardScan buf n).map (·.1) = (starts 0 (buf.take n)).getLast? := by
  induction n with
  | zero => rfl
  | succ n ih =>
      obtain ⟨line, here⟩ : ∃ line, buf[n]? = some line := ⟨_, List.getElem?_eq_getElem within⟩
      have of_line := walked line (List.mem_of_getElem? here)
      have whole : buf.take (n + 1) = buf.take n ++ [line] := by
        rw [List.take_add_one, here]
        rfl
      have all : ∀ m ∈ line.findAll.map (lineStart buf n + ·.1),
          decide (m < lineStart buf n + (line.len + 1)) = true := by
        intro m member
        obtain ⟨found, in_line, rfl⟩ := List.mem_map.1 member
        simp only [decide_eq_true_eq]
        rcases of_line.rests found in_line with member | ⟨-, zero⟩
        · have inside := of_line.inside _ member
          omega
        · omega
      have last := lastBefore_eq of_line (lineStart buf n) (line.len + 1)
      rw [List.filter_eq_self.2 all] at last
      have tail : starts (lineStart buf n) [line] = line.findAll.map (lineStart buf n + ·.1) :=
        List.append_nil _
      rw [backwardScan, whole, starts_append, Nat.zero_add, ← lineStart, tail, List.getLast?_append, ← last,
        lineAt_eq here]
      cases found : line.lastBefore (line.len + 1) with
      | some m => rfl
      | none =>
          rw [Option.map_none, Option.none_or]
          exact ih (Nat.le_of_succ_le within)

theorem matchBackwardBefore_eq (steps : Steps buf) {limit : Nat} (within : limit ≤ lenBytes buf) :
    (matchBackwardBefore buf limit).map (·.1) = ((starts 0 buf).filter (· < limit)).getLast? := by
  obtain ⟨i, line, here, on_line, after, before⟩ := exists_start steps within
  obtain ⟨parts, -⟩ := split_line here
  have of_line := steps.walked line (List.mem_of_getElem? here)
  have walked_front : ∀ line' ∈ buf.take i, Walked line' := fun line' member =>
    steps.walked line' (List.mem_of_mem_take member)
  have walked_back : ∀ line' ∈ buf.drop (i + 1), Walked line' := fun line' member =>
    steps.walked line' (List.mem_of_mem_drop member)
  have front : (starts 0 (buf.take i)).filter (· < limit) = starts 0 (buf.take i) := by
    refine List.filter_eq_self.2 fun m member => ?_
    have early := (mem_starts walked_front member).2
    rw [Nat.zero_add, ← lineStart] at early
    simp only [decide_eq_true_eq]
    omega
  have back : (starts (lineStart buf i + line.bytes) (buf.drop (i + 1))).filter (· < limit) = [] := by
    refine List.filter_eq_nil_iff.2 fun m member => ?_
    have late := (mem_starts walked_back member).1
    simp only [decide_eq_true_eq]
    omega
  have whole : starts 0 buf = starts 0 (buf.take i) ++
      (line.findAll.map (lineStart buf i + ·.1) ++
        starts (lineStart buf i + line.bytes) (buf.drop (i + 1))) := by
    conv_lhs => rw [parts]
    rw [starts_append, Nat.zero_add, ← lineStart, starts]
  have last := lastBefore_eq of_line (lineStart buf i) (limit - lineStart buf i)
  rw [Nat.add_sub_cancel' after] at last
  have inside := (List.getElem?_eq_some_iff.1 here).1
  rw [whole, List.filter_append, List.filter_append, front, back, List.append_nil, List.getLast?_append,
    ← last, matchBackwardBefore, on_line, lineAt_eq here]
  cases found : line.lastBefore (limit - lineStart buf i) with
  | some m => rfl
  | none =>
      rw [Option.map_none, Option.none_or]
      exact backwardScan_eq steps.walked (Nat.le_of_lt inside)

/-! ### Places that the cursor rests on -/

/-- A grapheme of a line, or the start of an empty one. -/
def Rests (buf : Buffer) (cursor : Nat) : Prop :=
  ∃ i line rel, buf[i]? = some line ∧ cursor = lineStart buf i + rel ∧
    (rel ∈ line.graphemes ∨ (line.len = 0 ∧ rel = 0))

theorem rests_of_start (steps : Steps buf) (member : m ∈ starts 0 buf) : Rests buf m := by
  have found : ∀ (buf' front : Buffer), (∀ line ∈ buf', Walked line) → m ∈ starts (lenBytes front) buf' →
      Rests (front ++ buf') m := by
    intro buf'
    induction buf' with
    | nil => rintro front - ⟨⟩
    | cons line buf' ih =>
        intro front walked member
        rw [starts] at member
        rcases List.mem_append.1 member with here | later
        · obtain ⟨found, in_line, rfl⟩ := List.mem_map.1 here
          refine ⟨front.length, line, found.1, ?_, ?_, (walked line (List.mem_cons_self ..)).rests found in_line⟩
          · rw [List.getElem?_append_right (Nat.le_refl _), Nat.sub_self]
            rfl
          · rw [lineStart, List.take_left]
        · have longer : lenBytes (front ++ [line]) = lenBytes front + line.bytes := by
            rw [lenBytes, List.map_append, List.sum_append, ← lenBytes]
            rfl
          have rest := ih (front ++ [line]) (fun line' member => walked line' (List.mem_cons_of_mem line member))
            (longer ▸ later)
          rwa [List.append_assoc, List.singleton_append] at rest
  exact found buf [] steps.walked member

/-- **The cursor settles on a place it rests on.** -/
theorem settle_rests (steps : Steps buf) (rests : Rests buf cursor) :
    settle buf cursor = cursor := by
  obtain ⟨i, line, rel, here, rfl, rest⟩ := rests
  have walked := steps.walked line (List.mem_of_getElem? here)
  have inside := walked.rest_lt rest
  have total := lineStart_add_le here
  have clamped : min (lineStart buf i + rel) (lastCharIdx buf) = lineStart buf i + rel := by
    rw [lastCharIdx]
    omega
  rw [settle, clamped, byteToLine_start here inside, lineAt_eq here, Nat.add_sub_cancel_left]
  simp only [Nat.add_left_cancel_iff]
  rcases rest with member | ⟨empty, rfl⟩
  · have within := walked.inside rel member
    have short : min rel (line.len - 1) = rel := by omega
    rw [short, Line.floorGrapheme, if_neg (by omega), last_le walked.graphemes member, Option.getD_some]
  · rw [Nat.zero_min, Line.floorGrapheme, empty, if_pos (Nat.le_refl 0)]

/-- From a place the cursor rests on, the matches from the next grapheme on are those behind it. -/
theorem nextGraphemeIdx_le (steps : Steps buf) (rests : Rests buf cursor) :
    nextGraphemeIdx buf cursor ≤ lenBytes buf ∧
      ∀ m ∈ starts 0 buf, nextGraphemeIdx buf cursor ≤ m ↔ cursor < m := by
  obtain ⟨i, line, rel, here, rfl, rest⟩ := rests
  have walked := steps.walked line (List.mem_of_getElem? here)
  have inside := walked.rest_lt rest
  have total := lineStart_add_le here
  have eol : line.bytes = line.len + line.eol := rfl
  -- A match behind the cursor: on its line, at a later grapheme, or on a later line.
  have later : ∀ m ∈ starts 0 buf, lineStart buf i + rel < m →
      (∃ s ∈ line.graphemes, m = lineStart buf i + s) ∨ lineStart buf i + line.bytes ≤ m := by
    intro m member after
    obtain ⟨i', line', rel', here', rfl, rest'⟩ := rests_of_start steps member
    have walked' := steps.walked line' (List.mem_of_getElem? here')
    have inside' := walked'.rest_lt rest'
    rcases Nat.lt_trichotomy i' i with less | rfl | more
    · have before := lineStart_mono buf (Nat.succ_le_of_lt less)
      rw [lineStart_succ here'] at before
      omega
    · rw [here, Option.some.injEq] at here'
      subst here'
      rcases rest' with member' | ⟨-, rfl⟩
      · exact Or.inl ⟨rel', member', rfl⟩
      · omega
    · have behind := lineStart_mono buf (Nat.succ_le_of_lt more)
      rw [lineStart_succ here] at behind
      omega
  rw [nextGraphemeIdx, byteToLine_start here inside, lineAt_eq here, Nat.add_sub_cancel_left]
  rcases rest with member | ⟨empty, rfl⟩
  · have within := walked.inside rel member
    rw [if_pos within, Line.nextGrapheme]
    cases found : line.graphemes.find? (rel < ·) with
    | none =>
        rw [Option.getD_none]
        refine ⟨by omega, fun m member' => ⟨fun after => by omega, fun after => ?_⟩⟩
        rcases later m member' after with ⟨s, of_line, rfl⟩ | next
        · have none_behind := List.find?_eq_none.1 found s of_line
          simp only [decide_eq_true_eq] at none_behind
          omega
        · omega
    | some g =>
        have after_g : rel < g := by simpa using List.find?_some found
        have in_line := walked.inside g (List.mem_of_find?_eq_some found)
        rw [Option.getD_some]
        refine ⟨by omega, fun m member' => ⟨fun after => by omega, fun after => ?_⟩⟩
        rcases later m member' after with ⟨s, of_line, rfl⟩ | next
        · have least := find_gt_le walked.graphemes found of_line (by omega)
          omega
        · omega
  · rw [empty, if_neg (Nat.lt_irrefl 0), Nat.add_zero, Nat.min_eq_left (by omega)]
    refine ⟨by omega, fun m member' => ⟨fun after => by omega, fun after => by omega⟩⟩

/-! ### Steps -/

/-- The start that a step goes to, among all. -/
def nextStart (buf : Buffer) (dir : SearchDir) (cursor : Nat) : Option Nat :=
  match dir with
  | .forward => ((starts 0 buf).find? (cursor < ·)).or (starts 0 buf).head?
  | .backward => (((starts 0 buf).filter (· < cursor)).getLast?).or (starts 0 buf).getLast?

theorem searchMatches_eq (steps : Steps buf) (rests : Rests buf cursor) (dir : SearchDir) :
    (searchMatches buf dir cursor).map (·.1) = nextStart buf dir cursor := by
  obtain ⟨within, behind⟩ := nextGraphemeIdx_le steps rests
  have inside : cursor ≤ lenBytes buf := by
    obtain ⟨i, line, rel, here, rfl, rest⟩ := rests
    have less := (steps.walked line (List.mem_of_getElem? here)).rest_lt rest
    have total := lineStart_add_le here
    omega
  cases dir with
  | forward =>
      have from_next := matchForwardFrom_eq steps within
      have from_top := matchForwardFrom_eq steps (Nat.zero_le (lenBytes buf))
      have ahead : (starts 0 buf).find? (nextGraphemeIdx buf cursor ≤ ·) =
          (starts 0 buf).find? (cursor < ·) :=
        List.find?_congr fun m member => decide_eq_decide.2 (behind m member)
      have all : (starts 0 buf).find? (0 ≤ ·) = (starts 0 buf).head? := by
        cases starts 0 buf with
        | nil => rfl
        | cons m rest => rw [List.find?_cons_of_pos (by simp), List.head?_cons]
      rw [searchMatches, nextStart, ← ahead, ← all, ← from_next, ← from_top]
      cases matchForwardFrom buf (nextGraphemeIdx buf cursor) <;> rfl
  | backward =>
      have from_here := matchBackwardBefore_eq steps inside
      have from_end := matchBackwardBefore_eq steps (Nat.le_refl (lenBytes buf))
      have all : (starts 0 buf).filter (· < lenBytes buf) = starts 0 buf := by
        refine List.filter_eq_self.2 fun m member => ?_
        have early := (mem_starts steps.walked member).2
        simpa using early
      rw [all] at from_end
      rw [searchMatches, nextStart, ← from_here, ← from_end]
      cases matchBackwardBefore buf cursor <;> rfl

theorem nextStart_mem {dir : SearchDir} (next : nextStart buf dir cursor = some m) :
    m ∈ starts 0 buf := by
  cases dir with
  | forward =>
      rw [nextStart, Option.or_eq_some_iff] at next
      rcases next with found | ⟨-, first⟩
      · exact List.mem_of_find?_eq_some found
      · exact List.mem_of_head? first
  | backward =>
      rw [nextStart, Option.or_eq_some_iff] at next
      rcases next with found | ⟨-, last⟩
      · exact List.mem_of_mem_filter (List.mem_of_getLast? found)
      · exact List.mem_of_getLast? last

/-- There is a next start where there is any. -/
theorem exists_nextStart (some_match : starts 0 buf ≠ []) (dir : SearchDir) (cursor : Nat) :
    ∃ m, nextStart buf dir cursor = some m := by
  cases dir with
  | forward =>
      obtain ⟨m, rest, whole⟩ := List.exists_cons_of_ne_nil some_match
      rw [nextStart]
      cases (starts 0 buf).find? (cursor < ·) with
      | none => exact ⟨m, by rw [whole]; rfl⟩
      | some m' => exact ⟨m', rfl⟩
  | backward =>
      rw [nextStart]
      cases ((starts 0 buf).filter (· < cursor)).getLast? with
      | none => exact ⟨_, List.getLast?_eq_some_getLast some_match⟩
      | some m' => exact ⟨m', rfl⟩

/-- One step. -/
def stepTo (buf : Buffer) (dir : SearchDir) (cursor : Nat) : Nat := (nextStart buf dir cursor).getD cursor

/-- **A walk of a count is as many steps.** -/
theorem runSearch_eq (steps : Steps buf) (some_match : starts 0 buf ≠ []) (dir : SearchDir)
    (count : Nat) (rests : Rests buf cursor) :
    runSearch buf dir (count + 1) cursor = (stepTo buf dir)^[count + 1] cursor := by
  have walks : ∀ (count cursor : Nat) (last : Option MatchRange), Rests buf cursor →
      ∃ hit, walk buf dir (count + 1) cursor last = some hit ∧ hit.1 ∈ starts 0 buf ∧
        hit.1 = (stepTo buf dir)^[count + 1] cursor := by
    intro count
    induction count with
    | zero =>
        intro cursor last rests
        obtain ⟨m, next⟩ := exists_nextStart some_match dir cursor
        have found := searchMatches_eq steps rests dir
        rw [next, Option.map_eq_some_iff] at found
        obtain ⟨hit, found, rfl⟩ := found
        refine ⟨hit, by rw [walk, found]; rfl, nextStart_mem next, ?_⟩
        rw [Function.iterate_one, stepTo, next, Option.getD_some]
    | succ count ih =>
        intro cursor last rests
        obtain ⟨m, next⟩ := exists_nextStart some_match dir cursor
        have found := searchMatches_eq steps rests dir
        rw [next, Option.map_eq_some_iff] at found
        obtain ⟨hit, found, rfl⟩ := found
        obtain ⟨hit', walked, member, same⟩ := ih hit.1 (some hit) (rests_of_start steps (nextStart_mem next))
        refine ⟨hit', by rw [walk, found]; exact walked, member, ?_⟩
        rw [same, Function.iterate_succ_apply (stepTo buf dir) (count + 1) cursor, stepTo, next,
          Option.getD_some]
  obtain ⟨hit, walked, member, same⟩ := walks count cursor none rests
  rw [runSearch, walked]
  simp only
  rw [settle_rests steps (rests_of_start steps member), same]

/-! ### Around the end -/

theorem nextStart_forward (steps : Steps buf) (here : (starts 0 buf)[i]? = some c) :
    nextStart buf .forward c = (starts 0 buf)[(i + 1) % (starts 0 buf).length]? := by
  have inside := (List.getElem?_eq_some_iff.1 here).1
  have next := find_gt (starts_sorted steps.walked 0) here
  rw [nextStart, next]
  by_cases more : i + 1 < (starts 0 buf).length
  · rw [Nat.mod_eq_of_lt more, List.getElem?_eq_getElem more]
    rfl
  · have last : i + 1 = (starts 0 buf).length := by omega
    rw [last, Nat.mod_self, List.getElem?_eq_none (Nat.le_refl _), Option.none_or, List.head?_eq_getElem?]

theorem nextStart_backward (steps : Steps buf) (here : (starts 0 buf)[i]? = some c) :
    nextStart buf .backward c =
      (starts 0 buf)[(i + ((starts 0 buf).length - 1)) % (starts 0 buf).length]? := by
  have inside := (List.getElem?_eq_some_iff.1 here).1
  have before := last_lt (starts_sorted steps.walked 0) here
  rw [nextStart, before]
  cases i with
  | zero =>
      have short : (starts 0 buf).length - 1 < (starts 0 buf).length := by omega
      rw [if_pos rfl, Option.none_or, Nat.zero_add, Nat.mod_eq_of_lt short, List.getLast?_eq_getElem?]
  | succ i =>
      have around : (i + 1 + ((starts 0 buf).length - 1)) % (starts 0 buf).length = i := by
        have whole : i + 1 + ((starts 0 buf).length - 1) = i + (starts 0 buf).length := by omega
        rw [whole, Nat.add_mod_right, Nat.mod_eq_of_lt (by omega)]
      rw [if_neg (Nat.succ_ne_zero i), Nat.add_sub_cancel, around, List.getElem?_eq_getElem (by omega)]
      rfl

/-- The start at a place around the cycle. -/
def startAt (buf : Buffer) (i : Nat) : Nat := ((starts 0 buf)[i % (starts 0 buf).length]?).getD 0

theorem startAt_here (some_match : starts 0 buf ≠ []) (i : Nat) :
    (starts 0 buf)[i % (starts 0 buf).length]? = some (startAt buf i) := by
  have inside := Nat.mod_lt i (List.length_pos_of_ne_nil some_match)
  rw [startAt, List.getElem?_eq_getElem inside]
  rfl

theorem startAt_add_length (buf : Buffer) (i : Nat) : startAt buf (i + (starts 0 buf).length) = startAt buf i := by
  rw [startAt, startAt, Nat.add_mod_right]

theorem stepTo_forward (steps : Steps buf) (some_match : starts 0 buf ≠ []) (i : Nat) :
    stepTo buf .forward (startAt buf i) = startAt buf (i + 1) := by
  rw [stepTo, nextStart_forward steps (startAt_here some_match i), Nat.mod_add_mod,
    startAt_here some_match (i + 1), Option.getD_some]

theorem stepTo_backward (steps : Steps buf) (some_match : starts 0 buf ≠ []) (i : Nat) :
    stepTo buf .backward (startAt buf (i + 1)) = startAt buf i := by
  have some_length := List.length_pos_of_ne_nil some_match
  have whole : i + 1 + ((starts 0 buf).length - 1) = i + (starts 0 buf).length := by omega
  rw [stepTo, nextStart_backward steps (startAt_here some_match (i + 1)), Nat.mod_add_mod, whole,
    startAt_here some_match, Option.getD_some, startAt_add_length]

/-- **Steps forward go around all the matches.** -/
theorem steps_forward (steps : Steps buf) (some_match : starts 0 buf ≠ []) (i m : Nat) :
    (stepTo buf .forward)^[m] (startAt buf i) = startAt buf (i + m) := by
  induction m generalizing i with
  | zero => rfl
  | succ m ih =>
      rw [Function.iterate_succ_apply, stepTo_forward steps some_match, ih, Nat.add_assoc, Nat.add_comm 1 m]

/-- **Steps backward go around them the other way.** -/
theorem steps_backward (steps : Steps buf) (some_match : starts 0 buf ≠ []) (i m : Nat) :
    (stepTo buf .backward)^[m] (startAt buf (i + m)) = startAt buf i := by
  induction m generalizing i with
  | zero => rfl
  | succ m ih =>
      have later : startAt buf (i + (m + 1)) = startAt buf ((i + m) + 1) := by rw [Nat.add_assoc]
      rw [Function.iterate_succ_apply, later, stepTo_backward steps some_match, ih]

/-! ### What a key does -/

theorem step_eq (steps : Steps buf) (some_match : starts 0 buf ≠ []) (dir : SearchDir)
    (same : Bool) (count : Nat) (rests : Rests buf cursor) : step buf dir same count cursor =
      (stepTo buf (if same then dir else dir.opposite))^[max count 1] cursor := by
  have some_step : max count 1 = max count 1 - 1 + 1 := by omega
  rw [step, some_step]
  exact runSearch_eq steps some_match _ _ rests

theorem stepTo_rests (steps : Steps buf) (some_match : starts 0 buf ≠ []) (dir : SearchDir)
    (cursor : Nat) : Rests buf (stepTo buf dir cursor) := by
  obtain ⟨m, next⟩ := exists_nextStart some_match dir cursor
  rw [stepTo, next, Option.getD_some]
  exact rests_of_start steps (nextStart_mem next)

/-- A buffer without matches holds the cursor. -/
theorem step_stays (steps : Steps buf) (no_match : starts 0 buf = []) (dir : SearchDir)
    (same : Bool) (count : Nat) (rests : Rests buf cursor) :
    step buf dir same count cursor = cursor := by
  have some_step : max count 1 = max count 1 - 1 + 1 := by omega
  rw [step, some_step]
  generalize (if same then dir else dir.opposite) = dir
  have no_next : nextStart buf dir cursor = none := by
    cases dir <;> simp [nextStart, no_match]
  have found := searchMatches_eq steps rests dir
  rw [no_next, Option.map_eq_none_iff] at found
  rw [runSearch, walk, found]

/-- The preview of a pattern rests where its search goes. -/
theorem preview_eq (steps : Steps buf) (dir : SearchDir) {origin : Nat} (rests : Rests buf origin) :
    preview buf dir origin = runSearch buf dir 1 origin := by
  rw [preview, runSearch, walk]
  cases found : searchMatches buf dir origin with
  | none => exact settle_rests steps rests
  | some hit => rfl

/-- The keys `n` (`true`) and `N` (`false`), pressed one after another without counts. -/
def presses (buf : Buffer) (dir : SearchDir) (same : Bool) (times cursor : Nat) : Nat :=
  (step buf dir same 1)^[times] cursor

theorem presses_eq (steps : Steps buf) (some_match : starts 0 buf ≠ []) (dir : SearchDir)
    (same : Bool) (times : Nat) (rests : Rests buf cursor) : presses buf dir same times cursor =
      (stepTo buf (if same then dir else dir.opposite))^[times] cursor := by
  induction times generalizing cursor with
  | zero => rfl
  | succ times ih =>
      have one := step_eq steps some_match dir same 1 rests
      rw [Nat.max_self, Function.iterate_one] at one
      rw [presses, Function.iterate_succ_apply, Function.iterate_succ_apply, one]
      exact ih (stepTo_rests steps some_match _ cursor)

/-- A key pressed from a place between the matches goes to the next of them. -/
theorem press_eq (steps : Steps buf) (some_match : starts 0 buf ≠ []) (dir : SearchDir)
    (same : Bool) (rests : Rests buf cursor) : some (step buf dir same 1 cursor) =
      nextStart buf (if same then dir else dir.opposite) cursor := by
  obtain ⟨m, next⟩ := exists_nextStart some_match (if same then dir else dir.opposite) cursor
  have one := step_eq steps some_match dir same 1 rests
  rw [one, Nat.max_self, Function.iterate_one, stepTo, next, Option.getD_some]

/-- A key pressed around the matches, from the `i`-th of them: the direction says which way. -/
def around (dir : SearchDir) (i m length : Nat) : Nat :=
  match dir with
  | .forward => i + m
  | .backward => i + m * (length - 1)

theorem steps_around (steps : Steps buf) (some_match : starts 0 buf ≠ []) (dir : SearchDir)
    (i m : Nat) :
    (stepTo buf dir)^[m] (startAt buf i) = startAt buf (around dir i m (starts 0 buf).length) := by
  cases dir with
  | forward => exact steps_forward steps some_match i m
  | backward =>
      have some_length := List.length_pos_of_ne_nil some_match
      have total : around .backward i m (starts 0 buf).length + m = i + m * (starts 0 buf).length := by
        obtain ⟨k, length⟩ := Nat.exists_eq_succ_of_ne_zero (Nat.ne_of_gt some_length)
        rw [around, length, Nat.succ_eq_add_one, Nat.add_sub_cancel, Nat.mul_add, Nat.mul_one]
        omega
      have back := steps_backward steps some_match (around .backward i m (starts 0 buf).length) m
      have same : startAt buf (i + m * (starts 0 buf).length) = startAt buf i := by
        rw [startAt, startAt, Nat.add_mul_mod_self_right]
      rw [total, same] at back
      exact back

/-- From a match, a key and the opposite one are back. -/
theorem step_back (steps : Steps buf) (some_match : starts 0 buf ≠ []) (dir : SearchDir)
    (same : Bool) (i : Nat) :
    step buf dir (!same) 1 (step buf dir same 1 (startAt buf i)) = startAt buf i := by
  have at_match : Rests buf (startAt buf i) :=
    rests_of_start steps (List.mem_of_getElem? (startAt_here some_match i))
  have one : ∀ same cursor, Rests buf cursor →
      step buf dir same 1 cursor = stepTo buf (if same then dir else dir.opposite) cursor := by
    intro same cursor rests
    rw [step_eq steps some_match dir same 1 rests, Nat.max_self, Function.iterate_one]
  have there_and_back : ∀ (dir : SearchDir) (i : Nat),
      stepTo buf dir.opposite (stepTo buf dir (startAt buf i)) = startAt buf i := by
    intro dir i
    cases dir with
    | forward =>
        rw [stepTo_forward steps some_match, SearchDir.opposite, stepTo_backward steps some_match]
    | backward =>
        have some_length := List.length_pos_of_ne_nil some_match
        have whole : i + (starts 0 buf).length = i + ((starts 0 buf).length - 1) + 1 := by omega
        rw [← startAt_add_length buf i, whole, stepTo_backward steps some_match, SearchDir.opposite,
          stepTo_forward steps some_match]
  rw [one same _ at_match, one (!same) _ (stepTo_rests steps some_match _ _)]
  cases same with
  | true => exact there_and_back dir i
  | false =>
      have back := there_and_back dir.opposite i
      cases dir <;> exact back

/-- **A search steps through all the matches of a buffer**: where every match starts at a place the cursor
rests on, a key goes to the next match in its direction, from match to match around the buffer, and `n` and
`N` undo each other on them; with matches or without, a count is as many keys, and the preview of the pattern
rests where the search goes. -/
theorem search_steps {buf : Buffer} (steps : Steps buf) (dir : SearchDir) :
    (starts 0 buf).Pairwise (· < ·) ∧
    (starts 0 buf ≠ [] →
      (∀ same cursor, Rests buf cursor →
        some (step buf dir same 1 cursor) = nextStart buf (if same then dir else dir.opposite) cursor) ∧
      (∀ same i m, presses buf dir same m (startAt buf i) =
        startAt buf (around (if same then dir else dir.opposite) i m (starts 0 buf).length)) ∧
      ∀ same i, step buf dir (!same) 1 (step buf dir same 1 (startAt buf i)) = startAt buf i) ∧
    (∀ same count cursor, 0 < count → Rests buf cursor →
      step buf dir same count cursor = presses buf dir same count cursor) ∧
    ∀ cursor, Rests buf cursor → preview buf dir cursor = step buf dir true 1 cursor := by
  refine ⟨starts_sorted steps.walked 0, fun some_match => ⟨?_, ?_, ?_⟩, ?_, ?_⟩
  · intro same cursor rests
    exact press_eq steps some_match dir same rests
  · intro same i m
    have at_match : Rests buf (startAt buf i) :=
      rests_of_start steps (List.mem_of_getElem? (startAt_here some_match i))
    rw [presses_eq steps some_match dir same m at_match]
    exact steps_around steps some_match _ i m
  · intro same i
    exact step_back steps some_match dir same i
  · intro same count cursor some_count rests
    by_cases some_match : starts 0 buf = []
    · rw [step_stays steps some_match dir same count rests, presses,
        Function.iterate_fixed (step_stays steps some_match dir same 1 rests)]
    · have count_eq : max count 1 = count := Nat.max_eq_left some_count
      rw [step_eq steps some_match dir same count rests, presses_eq steps some_match dir same count rests,
        count_eq]
  · intro cursor rests
    have settled := preview_eq steps dir rests
    rw [settled, step, if_pos rfl, Nat.max_self]

/-- Two lines of `ab` and `ab`, and the matches of `a`. -/
def twoLines : Buffer :=
  let found : List MatchRange := [(0, 1)]
  [⟨2, 1, [0, 1], found, fun col => found.find? fun m => col ≤ m.1⟩,
    ⟨2, 1, [0, 1], found, fun col => found.find? fun m => col ≤ m.1⟩]

theorem search_steps_two_lines : presses twoLines .forward true 3 0 = 3 := by
  have walked : ∀ line ∈ twoLines, Walked line := by
    intro line member
    have same : line = ⟨2, 1, [0, 1], [(0, 1)], fun col => [(0, 1)].find? fun m => col ≤ m.1⟩ := by
      rcases List.mem_cons.1 member with same | member
      · exact same
      · exact List.mem_singleton.1 member
    subst same
    constructor
    · decide
    · decide
    · decide
    · decide
    · intro col
      rfl
    · decide
  have around_both := (search_steps ⟨List.cons_ne_nil _ _, walked⟩ .forward).2.1 (by decide)
  exact around_both.2.1 true 0 3

/-- The lines `ab` and `cd`, and the matches of `$`. -/
def lineEnds : Buffer :=
  let found : List MatchRange := [(2, 2)]
  [⟨2, 1, [0, 1], found, fun col => found.find? fun m => col ≤ m.1⟩,
    ⟨2, 1, [0, 1], found, fun col => found.find? fun m => col ≤ m.1⟩]

/-- **Matches at the ends of lines hold the cursor**: `n` stays on the first of the two, and `2n` goes to the
second. -/
theorem line_ends_hold : starts 0 lineEnds = [2, 5] ∧
    step lineEnds .forward true 1 0 = 1 ∧ step lineEnds .forward true 1 1 = 1 ∧
    presses lineEnds .forward true 2 0 = 1 ∧ step lineEnds .forward true 2 0 = 4 := by
  decide

end Bemtvi.Core.SearchSteps
