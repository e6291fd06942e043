/-
Module: Bemtvi.Core.CountsLaws
Purpose: No count leaves the machine: motions and doubled operators go where the natural numbers say, with
  a count past the ceiling taken as the ceiling.
Trusted boundary: none
Main exports: typed_eq, effectiveCount_eq, View.goesTo, resolveMotion_eq, motion_counts
-/
import Bemtvi.Core.Counts

namespace Bemtvi.Core.Counts

/-! ### Typed counts -/

theorem digit_le {c : Char} (digits : c.isDigit = true) : digit c ≤ 9 := by
  rw [Char.isDigit, Bool.and_eq_true, decide_eq_true_eq, decide_eq_true_eq] at digits
  have below : c.toNat ≤ 57 := digits.2
  have zero : '0'.toNat = 48 := rfl
  rw [digit, zero]
  omega

variable {keys before : List Char} {p : Pending}

/-- A count that is typed further, digit by digit. -/
theorem typed_from {n m : Nat} (whole : typed (some (min n usizeMax)) keys = some m) :
    m = min (keys.foldl (fun n c => n * 10 + digit c) n) usizeMax := by
  induction keys generalizing n with
  | nil =>
      cases whole
      rfl
  | cons c keys ih =>
      rw [typed] at whole
      cases next : accumulate (some (min n usizeMax)) c with
      | none =>
          rw [next] at whole
          cases whole
      | some count =>
          rw [next] at whole
          rw [accumulate] at next
          split at next
          · rw [Option.some.injEq, Option.getD_some] at next
            have same : count = min (n * 10 + digit c) usizeMax := by
              rw [← next, usizeMax]
              omega
            rw [same] at whole
            exact ih whole
          · cases next

/-- **A typed count is its number, up to the machine's end.** -/
theorem typed_eq {n : Nat} (whole : typed none keys = some n) :
    n = min (spelled keys) usizeMax ∧ 1 ≤ n := by
  cases keys with
  | nil => cases whole
  | cons c keys =>
      rw [typed] at whole
      cases first : accumulate none c with
      | none =>
          rw [first] at whole
          cases whole
      | some count =>
          rw [first] at whole
          rw [accumulate] at first
          split at first
          · next starts =>
              rw [Option.some.injEq, Option.getD_none] at first
              rw [Bool.and_eq_true, Bool.not_eq_true', Bool.and_eq_false_iff] at starts
              have small := digit_le starts.1
              have same : count = min (digit c) usizeMax := by
                rw [← first, usizeMax]
                omega
              rw [same] at whole
              have value := typed_from whole
              have spells : spelled (c :: keys) = keys.foldl (fun n c => n * 10 + digit c) (digit c) := by
                rw [spelled, List.foldl_cons, Nat.zero_mul, Nat.zero_add]
              refine ⟨spells ▸ value, ?_⟩
              have grows : ∀ (keys : List Char) (n : Nat), n ≤ keys.foldl (fun n c => n * 10 + digit c) n := by
                intro keys
                induction keys with
                | nil => exact fun n => Nat.le_refl n
                | cons c keys ih =>
                    intro n
                    exact Nat.le_trans (by omega) (ih (n * 10 + digit c))
              have not_zero : digit c ≠ 0 := by
                intro zero
                have bounds := starts.1
                rw [Char.isDigit, Bool.and_eq_true, decide_eq_true_eq, decide_eq_true_eq] at bounds
                have above : '0'.toNat ≤ c.toNat := bounds.1
                have same : c.toNat = '0'.toNat := by
                  rw [digit] at zero
                  omega
                have zeroth : c = '0' := Char.ext (UInt32.toNat_inj.1 same)
                rcases starts.2 with other | other
                · rw [zeroth] at other
                  cases other
                · cases other
              have least := grows keys (digit c)
              rw [value, usizeMax]
              omega
          · cases first

/-- A count is typed with keys, or not at all. -/
def Typed (keys : List Char) (count : Option Nat) : Prop :=
  (keys = [] ∧ count = none) ∨ (typed none keys = count ∧ count.isSome = true)

/-- The number a count stands for. -/
def natural (keys : List Char) : Nat := if keys = [] then 1 else spelled keys

theorem Typed.getD_eq {count : Option Nat} (of_keys : Typed keys count) :
    count.getD 1 = min (natural keys) usizeMax ∧ 1 ≤ count.getD 1 := by
  rcases of_keys with ⟨rfl, rfl⟩ | ⟨whole, some_count⟩
  · have one : 1 ≤ usizeMax := by rw [usizeMax]; omega
    rw [natural, if_pos rfl, Nat.min_eq_left one]
    exact ⟨rfl, Nat.le_refl 1⟩
  · obtain ⟨n, rfl⟩ := Option.isSome_iff_exists.1 some_count
    obtain ⟨value, positive⟩ := typed_eq whole
    have some_key : keys ≠ [] := by
      rintro rfl
      cases whole
    rw [natural, if_neg some_key]
    exact ⟨value, positive⟩

/-- A product of numbers cut at a bound, cut at a smaller one. -/
theorem capped_mul {a b bound ceiling : Nat} (some_a : 1 ≤ min a bound) (some_b : 1 ≤ min b bound)
    (below : ceiling ≤ bound) :
    min (min (min a bound * min b bound) bound) ceiling = min (a * b) ceiling := by
  rw [Nat.min_assoc, Nat.min_eq_right below]
  rcases Nat.le_total a bound with small | large
  · rcases Nat.le_total b bound with small' | large'
    · rw [Nat.min_eq_left small, Nat.min_eq_left small']
    · rw [Nat.min_eq_left small] at some_a ⊢
      rw [Nat.min_eq_right large']
      have many : bound ≤ a * bound := Nat.le_mul_of_pos_left bound some_a
      have many' : bound ≤ a * b := Nat.le_trans large' (Nat.le_mul_of_pos_left b some_a)
      rw [Nat.min_eq_right (Nat.le_trans below many), Nat.min_eq_right (Nat.le_trans below many')]
  · have positive : 1 ≤ b := Nat.le_trans some_b (Nat.min_le_left b bound)
    rw [Nat.min_eq_right large]
    have many : bound ≤ bound * min b bound := Nat.le_mul_of_pos_right bound some_b
    have many' : bound ≤ a * b := Nat.le_trans large (Nat.le_mul_of_pos_right a positive)
    rw [Nat.min_eq_right (Nat.le_trans below many), Nat.min_eq_right (Nat.le_trans below many')]

theorem maxCount_le : maxCount ≤ usizeMax := by decide

/-- **The effective count is the product of the numbers typed, up to the ceiling.** -/
theorem effectiveCount_eq {behind : List Char} (op : Typed before p.opCount)
    (count : Typed behind p.count) :
    effectiveCount p = min (natural before * natural behind) maxCount ∧ 1 ≤ effectiveCount p := by
  obtain ⟨value, positive⟩ := op.getD_eq
  obtain ⟨value', positive'⟩ := count.getD_eq
  have one : 1 ≤ maxCount := by decide
  refine ⟨?_, Nat.le_min.2 ⟨Nat.le_min.2 ⟨Nat.mul_le_mul positive positive', ?_⟩, one⟩⟩
  · rw [effectiveCount]
    rw [value] at positive ⊢
    rw [value'] at positive' ⊢
    exact capped_mul positive positive' maxCount_le
  · exact Nat.le_trans one maxCount_le

/-! ### Rounds -/

/-- **Steps taken until they stay are the steps taken all.** -/
theorem stepUntil_eq {α : Type} [DecidableEq α] (step : α → α) (n : Nat) (x : α) :
    stepUntil step n x = step^[n] x := by
  induction n generalizing x with
  | zero => rfl
  | succ n ih =>
      rw [stepUntil, Function.iterate_succ_apply]
      split
      · next stays => rw [stays, Function.iterate_fixed stays]
      · exact ih (step x)

namespace View

variable (v : View)

theorem lineBelowFolds_eq (line n : Nat) :
    v.lineBelowFolds line n = v.below^[n] (v.foldLineStart line) := by
  have loops : ∀ n l, lineBelowFolds.loop v n l = v.below^[n + 1] l := by
    intro n
    induction n with
    | zero =>
        intro l
        rw [lineBelowFolds.loop, Function.iterate_one, below]
    | succ n ih =>
        intro l
        rw [lineBelowFolds.loop, Function.iterate_succ_apply, below]
        split
        · next last =>
            have stays : v.below l = l := by rw [below, if_pos last]
            exact (Function.iterate_fixed stays (n + 1)).symm
        · exact ih _
  cases n with
  | zero => rfl
  | succ n => exact loops n _

theorem lineAboveFolds_eq (line n : Nat) :
    v.lineAboveFolds line n = v.above^[n] (v.foldLineStart line) := by
  have loops : ∀ n l, lineAboveFolds.loop v n l = v.above^[n + 1] l := by
    intro n
    induction n with
    | zero =>
        intro l
        rw [lineAboveFolds.loop, Function.iterate_one, above]
    | succ n ih =>
        intro l
        rw [lineAboveFolds.loop, Function.iterate_succ_apply, above]
        split
        · next first =>
            have stays : v.above l = l := by rw [above, if_pos first]
            exact (Function.iterate_fixed stays (n + 1)).symm
        · exact ih _
  cases n with
  | zero => rfl
  | succ n => exact loops n _

/-- **A find goes to the match of its count.** -/
theorem findLoop_eq (target : Char) (cols : List Nat) (left found : Nat) :
    v.findLoop target (found + left + 1) found cols =
      (cols.filter fun col => v.charAt col = some target)[left]? := by
  induction cols generalizing left found with
  | nil => rfl
  | cons col cols ih =>
      rw [findLoop, List.filter_cons]
      by_cases here : v.charAt col = some target
      · simp only [here, if_true, decide_true]
        cases left with
        | zero => rw [if_pos (by omega), List.getElem?_cons_zero]
        | succ left =>
            have more := ih left (found + 1)
            rw [if_neg (by omega), List.getElem?_cons_succ, ← more]
            congr 1
            omega
      · simp only [here, if_false, decide_false, Bool.false_eq_true]
        exact ih left found

/-- Where a word motion goes over the natural numbers: under an operator the last word's line ends it. -/
def wordRounds (big operator : Bool) : Nat → Nat → Nat
  | 0, idx => idx
  | left + 1, idx =>
      if v.wordForward big idx = idx then idx
      else if operator ∧ left = 0 ∧ idx < v.eolOf idx ∧
          v.byteToLine (v.wordForward big idx) > v.byteToLine idx then v.eolOf idx
      else wordRounds big operator left (v.wordForward big idx)

theorem wordLoop_eq (big operator : Bool) (left n idx : Nat) (within : n + left ≤ usizeMax) :
    v.wordLoop big operator (n + left) n idx left = some (v.wordRounds big operator left idx) := by
  induction left generalizing n idx with
  | zero => rfl
  | succ left ih =>
      rw [wordLoop, wordRounds]
      by_cases stays : v.wordForward big idx = idx
      · simp only [stays, if_true]
      · have sum : addU n 1 = some (n + 1) := by
          rw [addU, if_pos (by omega)]
        have last : n + 1 = n + (left + 1) ↔ left = 0 := by omega
        have rest := ih (n + 1) (v.wordForward big idx) (by omega)
        rw [show n + 1 + left = n + (left + 1) by omega] at rest
        simp only [stays, if_false, sum, Option.bind_some, last, rest]
        split
        · rfl
        · rfl

/-- `sentence_motion` over the natural numbers. -/
def sentenceRounds (forward : Bool) : Nat → Nat → Nat × Nat → Option (Nat × Nat)
  | 0, _, pos => some pos
  | _ + 1, 0, pos => some pos
  | fuel + 1, left + 1, pos =>
      (v.sentence forward pos (0 < left)).bind fun pos' =>
        if pos' = pos then
          match v.stepChar forward pos' with
          | none => if left > 0 then none else some pos'
          | some pos'' => sentenceRounds forward fuel (left + 1) pos''
        else sentenceRounds forward fuel left pos'

theorem sentenceLoop_eq (forward : Bool) (fuel left : Nat) (pos : Nat × Nat) (within : left ≤ usizeMax) :
    v.sentenceLoop forward fuel left pos = some (v.sentenceRounds forward fuel left pos) := by
  induction fuel generalizing left pos with
  | zero => rfl
  | succ fuel ih =>
      cases left with
      | zero => rfl
      | succ left =>
          have rest : subU (left + 1) 1 = some left := by
            rw [subU, if_pos (Nat.le_add_left 1 left), Nat.add_sub_cancel]
          have again : addU left 1 = some (left + 1) := by
            rw [addU, if_pos within]
          rw [sentenceLoop, sentenceRounds, if_neg (Nat.succ_ne_zero left), rest, Option.bind_some]
          cases found : v.sentence forward pos (0 < left) with
          | none => rfl
          | some pos' =>
              rw [Option.bind_some]
              by_cases stays : pos' = pos
              · simp only [stays, if_true]
                cases v.stepChar forward pos with
                | none =>
                    simp only
                    split <;> rfl
                | some pos'' =>
                    simp only [again, Option.bind_some]
                    exact ih (left + 1) pos'' within
              · simp only [stays, if_false]
                exact ih left pos' (by omega)

/-! ### Where motions go -/

/-- `find_char_target`: the match of a number among the graphemes on its side. -/
def findTarget (kind : FindKind) (target : Char) (n : Nat) (again : Bool) : Option Nat :=
  let cols := if kind.forward then v.ahead else v.behind
  let skip := kind.till? && again && (cols.head?.bind v.charAt == some target) &&
    (kind.forward || (cols.head?.any fun col => 0 < col))
  let hit := ((if skip then cols.drop 1 else cols).filter fun col => v.charAt col = some target)[n - 1]?
  hit.map fun col =>
    if kind.till? then (if kind.forward then v.prevGrapheme v.line col else v.nextGrapheme v.line col)
    else col

/-- Where a motion goes with a number, over the natural numbers and clamped to the buffer; `raw` is the
number of `G`, `gg` and `%`. -/
@[grind =]
def goesTo (fuel : Nat) (operator : Option Char) (n : Nat) (raw : Option Nat) : Motion → Option Place
  | .gotoTop => some (.line (min ((raw.getD 1) - 1) v.lastLine))
  | .findRepeat reverse =>
      v.lastFind.bind fun last =>
        (v.findTarget (if reverse then last.1.reversed else last.1) last.2 n true).map (.cell v.line)
  | .find kind target => (v.findTarget kind target n false).map (.cell v.line)
  | .markJumpExact name _ => (v.markPosition name).map fun pos => .cell pos.1 pos.2
  | .markJumpLine name _ => (v.markPosition name).map fun pos => .line pos.1
  | .left => some (.cell v.line ((v.prevGrapheme v.line)^[n] v.col))
  | .right => some (.cell v.line ((v.nextGrapheme v.line)^[n] v.col))
  | .lineStart => some (.cell v.line 0)
  | .firstNonBlank => some (.cell v.line (v.firstNonBlank v.line))
  | .lineEnd =>
      let l := min (v.line + (n - 1)) v.lastLine
      some (.cell l (v.prevGrapheme l (v.lineLen l)))
  | .down | .lineDownFirst =>
      if v.line ≥ v.lastLine then none
      else some (.line (min (v.below^[n] (v.foldLineStart v.line)) v.lastLine))
  | .up | .lineUpFirst =>
      if v.line = 0 then none else some (.line (v.above^[n] (v.foldLineStart v.line)))
  | .displayDown =>
      if v.wraps then
        let at_ := (v.displayStep true)^[n] (v.line, v.curSeg)
        some (.cell at_.1 (v.displayCell at_.1 at_.2))
      else some (.line (min (v.line + n) v.lastLine))
  | .displayUp =>
      if v.wraps then
        let at_ := (v.displayStep false)^[n] (v.line, v.curSeg)
        some (.cell at_.1 (v.displayCell at_.1 at_.2))
      else some (.line (v.line - n))
  | .displayLineStart => some (.cell v.line v.displayStart)
  | .displayFirstNonBlank => some (.cell v.line v.displayFirst)
  | .displayLineEnd => some (.cell v.line v.displayEnd)
  | .gotoLine => some (.line (min (raw.elim v.lastLine (· - 1)) v.lastLine))
  | .word big =>
      some (.byte (
        if operator = some 'c' ∧ v.lineLen v.line = 0 then v.cursorChar
        else if operator = some 'c' ∧ v.onWord then
          (v.wordEnd big)^[n - if v.atWordEnd big then 1 else 0] v.cursorChar
        else v.wordRounds big operator.isSome n v.cursorChar))
  | .backWord big => some (.byte ((v.wordBackward big)^[n] v.cursorChar))
  | .endWord big => some (.byte ((v.wordEnd big)^[n] v.cursorChar))
  | .percent =>
      if raw.isSome then
        if raw.getD 0 > 100 then none
        else some (.line (min (max (((v.lastLine + 1) * raw.getD 0 + 99) / 100) 1) (v.lastLine + 1) - 1))
      else v.matchingBracket.map .byte
  | .sentence forward =>
      (v.sentenceRounds forward fuel n (v.line, v.col)).map fun pos => .cell pos.1 pos.2
  | .paragraph forward => v.paragraphMotion forward n
  | .lineFirst =>
      if n > 1 then
        if v.line ≥ v.lastLine then none
        else some (.line (min (v.below^[n - 1] (v.foldLineStart v.line)) v.lastLine))
      else some (.line v.line)
  | .column =>
      some (.cell v.line (min (v.byteAtVirtcol (n - 1)) (v.prevGrapheme v.line (v.lineLen v.line))))
  | .windowTop =>
      let top := min v.top v.lastLine
      some (.line (min (top + (n - 1)) (min (top + max v.textHeight 1 - 1) v.lastLine)))
  | .windowMiddle =>
      let top := min v.top v.lastLine
      some (.line (top + (min (top + max v.textHeight 1 - 1) v.lastLine - top) / 2))
  | .windowBottom =>
      let top := min v.top v.lastLine
      some (.line (max (min (top + max v.textHeight 1 - 1) v.lastLine - (n - 1)) top))

/-- A cursor in a buffer that memory holds. -/
structure Within (v : View) : Prop where
  cursor : v.line ≤ v.lastLine
  lines : v.lastLine < 2 ^ 63

variable {v}

variable {n : Nat} {v : View}

theorem Within.sum (within : v.Within) {line : Nat} (inside : line ≤ v.lastLine)
    (capped : n ≤ maxCount) : addU line n = some (line + n) := by
  have few := within.lines
  have room : line + n ≤ usizeMax := by
    rw [maxCount] at capped
    rw [usizeMax]
    omega
  rw [addU, if_pos room]

theorem subU_one (positive : 1 ≤ n) : subU n 1 = some (n - 1) := by
  rw [subU, if_pos positive]

/-- A place `n - 1` lines down. -/
theorem Within.down (within : v.Within) {line : Nat} (inside : line ≤ v.lastLine)
    (positive : 1 ≤ n) (capped : n ≤ maxCount) :
    (addU line n).bind (fun sum => subU sum 1) = some (line + (n - 1)) := by
  rw [within.sum inside capped, Option.bind_some, subU_one (Nat.le_add_left_of_le positive),
    Nat.add_sub_assoc positive]

theorem findCharTarget_eq (v : View) (kind : FindKind) (target : Char) (positive : 1 ≤ n)
    (again : Bool) : v.findCharTarget kind target n again = v.findTarget kind target n again := by
  rw [findCharTarget, findTarget]
  have loop (cols : List Nat) : v.findLoop target n 0 cols =
      (cols.filter fun col => v.charAt col = some target)[n - 1]? := by
    have found := v.findLoop_eq target cols (n - 1) 0
    rwa [Nat.zero_add, Nat.sub_add_cancel positive] at found
  simp only [loop]

/-- **No count leaves the machine, and a motion goes where the natural numbers say.** -/
theorem resolveMotion_eq (within : v.Within) {p : Pending} (positive : 1 ≤ effectiveCount p)
    (raw : ∀ n, rawCount p = some n → 1 ≤ n) (fuel : Nat) (motion : Motion)
    (percent : motion = .percent → (v.lastLine + 1) * 100 ≤ usizeMax) :
    v.resolveMotion fuel p motion =
      some (v.goesTo fuel p.operator (effectiveCount p) (rawCount p) motion) := by
  have capped : effectiveCount p ≤ maxCount := Nat.min_le_right _ _
  cases motion with
  | gotoTop =>
      rw [resolveMotion, goesTo]
      cases some_raw : rawCount p with
      | none => rfl
      | some n =>
          simp only [subU_one (raw n some_raw)]
          rfl
  | findRepeat reverse =>
      rw [resolveMotion, goesTo]
      simp only [findCharTarget_eq v _ _ positive]
  | find kind target =>
      rw [resolveMotion, goesTo]
      simp only [findCharTarget_eq v _ _ positive]
  | markJumpExact name _ => rfl
  | markJumpLine name _ => rfl
  | left =>
      rw [resolveMotion, goesTo]
      simp only [stepUntil_eq]
  | right =>
      rw [resolveMotion, goesTo]
      simp only [stepUntil_eq]
  | lineStart => rfl
  | firstNonBlank => rfl
  | lineEnd =>
      rw [resolveMotion, goesTo]
      have sum := within.down within.cursor positive capped
      rw [within.sum within.cursor capped, Option.bind_some] at sum
      simp only [within.sum within.cursor capped, Option.bind_some, sum]
      rfl
  | down =>
      rw [resolveMotion, goesTo]
      simp only [lineBelowFolds_eq]
  | up =>
      rw [resolveMotion, goesTo]
      simp only [lineAboveFolds_eq]
  | displayDown =>
      rw [resolveMotion, goesTo, displayMotion]
      simp only [stepUntil_eq, within.sum within.cursor capped]
      split <;> rfl
  | displayUp =>
      rw [resolveMotion, goesTo, displayMotion]
      simp only [stepUntil_eq]
      split <;> rfl
  | displayLineStart => rfl
  | displayFirstNonBlank => rfl
  | displayLineEnd => rfl
  | gotoLine =>
      rw [resolveMotion, goesTo]
      cases some_raw : rawCount p with
      | none => rfl
      | some n =>
          simp only [subU_one (raw n some_raw)]
          rfl
  | word big =>
      have room : 0 + effectiveCount p ≤ usizeMax := by
        rw [Nat.zero_add]
        exact Nat.le_trans capped maxCount_le
      have loop := v.wordLoop_eq big p.operator.isSome (effectiveCount p) 0 v.cursorChar room
      rw [Nat.zero_add] at loop
      rw [resolveMotion, goesTo, wordMotion]
      simp only [stepUntil_eq, loop]
      split
      · rfl
      · split <;> rfl
  | backWord big =>
      rw [resolveMotion, goesTo]
      simp only [stepUntil_eq]
  | endWord big =>
      rw [resolveMotion, goesTo]
      simp only [stepUntil_eq]
  | percent =>
      rw [resolveMotion, goesTo]
      cases some_raw : rawCount p with
      | none => rfl
      | some n =>
          simp only [Option.isSome_some, if_true, Option.getD_some]
          by_cases over_all : n > 100
          · rw [if_pos over_all, if_pos over_all]
          · have room : (v.lastLine + 1) * n ≤ usizeMax :=
              Nat.le_trans (Nat.mul_le_mul_left _ (Nat.le_of_not_lt over_all)) (percent rfl)
            rw [if_neg over_all, if_neg over_all, mulU, if_pos room]
            rfl
  | sentence forward =>
      rw [resolveMotion, goesTo]
      simp only [Nat.max_eq_left positive,
        v.sentenceLoop_eq forward fuel _ _ (Nat.le_trans capped maxCount_le)]
      rfl
  | paragraph forward => rfl
  | lineDownFirst =>
      rw [resolveMotion, goesTo]
      simp only [lineBelowFolds_eq]
  | lineUpFirst =>
      rw [resolveMotion, goesTo]
      simp only [lineAboveFolds_eq]
  | lineFirst =>
      rw [resolveMotion, goesTo]
      simp only [lineBelowFolds_eq, subU_one positive, Option.map_some]
      split
      · split <;> rfl
      · rfl
  | column =>
      rw [resolveMotion, goesTo]
      simp only [subU_one positive, Option.map_some]
  | windowTop =>
      rw [resolveMotion, goesTo]
      have inside : min v.top v.lastLine ≤ v.lastLine := Nat.min_le_right _ _
      have sum := within.down inside positive capped
      rw [within.sum inside capped, Option.bind_some] at sum
      simp only [within.sum inside capped, Option.bind_some, sum, Option.map_some]
  | windowMiddle => rfl
  | windowBottom =>
      rw [resolveMotion, goesTo]
      simp only [subU_one positive, Option.map_some]

/-- A number past the machine's end goes where the machine's end does. -/
theorem goesTo_raw (within : v.Within) (fuel n x : Nat) (operator : Option Char) (motion : Motion) :
    v.goesTo fuel operator n (some (min x usizeMax)) motion = v.goesTo fuel operator n (some x) motion := by
  have few := within.lines
  have line : min (min x usizeMax - 1) v.lastLine = min (x - 1) v.lastLine := by
    rw [usizeMax]
    omega
  have hundred : 100 ≤ usizeMax := by decide
  cases motion with
  | gotoTop => simp only [goesTo, Option.getD_some, line]
  | gotoLine => simp only [goesTo, Option.elim_some, line]
  | percent =>
      simp only [goesTo, Option.isSome_some, if_true, Option.getD_some]
      by_cases large : x > 100
      · have large' : min x usizeMax > 100 := Nat.lt_min.2 ⟨large, by decide⟩
        rw [if_pos large, if_pos large']
      · rw [Nat.min_eq_left (Nat.le_trans (Nat.le_of_not_lt large) hundred)]
  | _ => rfl

end View

/-- The number of `G`, `gg` and `%`, from the keys. -/
def rawNatural (operator : Option Char) (before behind : List Char) : Option Nat :=
  if operator.isSome ∧ before ≠ [] then some (spelled before)
  else if behind = [] then none
  else some (spelled behind)

theorem Typed.eq_map {count : Option Nat} (of_keys : Typed keys count) :
    count = if keys = [] then none else some (min (spelled keys) usizeMax) := by
  rcases of_keys with ⟨rfl, rfl⟩ | ⟨whole, some_count⟩
  · rfl
  · obtain ⟨n, rfl⟩ := Option.isSome_iff_exists.1 some_count
    have some_key : keys ≠ [] := by
      rintro rfl
      cases whole
    rw [if_neg some_key, (typed_eq whole).1]

theorem rawCount_eq {behind : List Char} (op : Typed before p.opCount)
    (count : Typed behind p.count) :
    rawCount p = (rawNatural p.operator before behind).map (min · usizeMax) := by
  rw [rawCount, rawNatural, op.eq_map, count.eq_map]
  by_cases under : p.operator.isSome = true
  · by_cases first : before = []
    · by_cases second : behind = []
      · simp [under, first, second]
      · simp [under, first, second]
    · simp [under, first]
  · by_cases second : behind = []
    · simp [under, second]
    · simp [under, second]

theorem rawCount_pos {behind : List Char} (op : Typed before p.opCount)
    (count : Typed behind p.count) : ∀ n, rawCount p = some n → 1 ≤ n := by
  intro n found
  have positive := op.getD_eq.2
  have positive' := count.getD_eq.2
  rw [rawCount] at found
  cases some_op : p.opCount with
  | none =>
      rw [some_op, Option.none_or, ite_self] at found
      rwa [found] at positive'
  | some m =>
      rw [some_op] at found positive
      split at found
      · cases found
        exact positive
      · rwa [found] at positive'

/-- **Counts of any length: motions and doubled operators go where the natural numbers say.** -/
theorem motion_counts {v : View} (within : v.Within) {p : Pending} {before behind : List Char}
    (op : Typed before p.opCount) (count : Typed behind p.count) (fuel : Nat) :
    (∀ motion, (motion = .percent → (v.lastLine + 1) * 100 ≤ usizeMax) →
      v.resolveMotion fuel p motion = some (v.goesTo fuel p.operator
        (min (natural before * natural behind) maxCount) (rawNatural p.operator before behind) motion)) ∧
    ∃ last, v.doubledTarget p = some last ∧ v.line ≤ last ∧
      last = min (v.line + (min (natural before * natural behind) maxCount - 1)) v.lastLine ∧
      last + 1 - v.line =
        min (min (natural before * natural behind) maxCount) (v.lastLine + 1 - v.line) := by
  obtain ⟨effective, positive⟩ := effectiveCount_eq op count
  have capped : effectiveCount p ≤ maxCount := Nat.min_le_right _ _
  have inside := within.cursor
  constructor
  · intro motion percent
    rw [View.resolveMotion_eq within positive (rawCount_pos op count) fuel motion percent,
      rawCount_eq op count, effective]
    cases rawNatural p.operator before behind with
    | none => rfl
    | some x => rw [Option.map_some, View.goesTo_raw within]
  · have target := within.down inside positive capped
    have found : v.doubledTarget p = some (min (v.line + (effectiveCount p - 1)) v.lastLine) := by
      rw [within.sum inside capped, Option.bind_some] at target
      rw [View.doubledTarget, within.sum inside capped, Option.bind_some, target, Option.map_some]
    rw [← effective]
    refine ⟨_, found, ?_, rfl, ?_⟩
    · omega
    · omega

/-- A buffer without text: every step stays. -/
def blankView (lastLine : Nat) : View where
  lastLine
  line := 0
  col := 0
  cursorChar := 0
  lineLen _ := 0
  byteToLine _ := 0
  eolOf _ := 0
  prevGrapheme _ col := col
  nextGrapheme _ col := col
  charAt _ := none
  ahead := []
  behind := []
  firstNonBlank _ := 0
  foldLineStart l := l
  foldLineEnd l := l
  wordForward _ idx := idx
  wordBackward _ idx := idx
  wordEnd _ idx := idx
  onWord := false
  atWordEnd _ := false
  lastFind := none
  markPosition _ := none
  matchingBracket := none
  wraps := false
  segCount _ := 1
  curSeg := 0
  displayCell _ _ := 0
  displayStart := 0
  displayFirst := 0
  displayEnd := 0
  sentence _ pos _ := some pos
  stepChar _ _ := none
  byteAtVirtcol target := target
  top := 0
  textHeight := 1

theorem motion_counts_three :
    ∃ last, (blankView 9).doubledTarget ⟨some 'd', some 3, none⟩ = some last ∧ 0 ≤ last ∧
      last = min (0 + (min (natural ['3'] * natural []) maxCount - 1)) 9 ∧
      last + 1 - 0 = min (min (natural ['3'] * natural []) maxCount) (9 + 1 - 0) :=
  (@motion_counts (blankView 9) ⟨by decide, by decide⟩ ⟨some 'd', some 3, none⟩ ['3'] [] (Or.inr ⟨by decide, rfl⟩) (Or.inl ⟨rfl, rfl⟩) 0).2

/-- A count past the ceiling in a longer buffer, and a percentage of a buffer past all memory. -/
theorem motion_counts_ceiling :
    typed none "1000000000".toList = some 1000000000 ∧
      (blankView 1000000000).doubledTarget ⟨some 'd', some 1000000000, none⟩ = some 999999998 ∧
      (blankView (2 ^ 62)).resolveMotion 0 ⟨none, none, some 100⟩ .percent = none := by
  decide

end Bemtvi.Core.Counts
