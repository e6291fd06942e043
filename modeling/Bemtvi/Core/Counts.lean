/-
Module: Bemtvi.Core.Counts
Purpose: Typed counts, and where motions and doubled operators go with them, in the arithmetic of a
  64-bit machine.
Trusted boundary: human-reviewed model of bemtvi-core/src/editor/motions.rs:36-124, 134-342, 469-670 and
  712-785, command.rs:1346-1362 and 3078-3146, fold.rs:587-611 and mod.rs:3515-3523; a step that no count
  takes part in is a field of `View`; a sum or difference with a count is `none` when it leaves the machine
Main exports: accumulate, Pending, effectiveCount, View, Motion, resolveMotion, doubledTarget
-/
import Mathlib

namespace Bemtvi.Core.Counts

/-! ### The machine -/

def usizeMax : Nat := 2 ^ 64 - 1

/-- `+`. -/
def addU (a b : Nat) : Option Nat := if a + b ≤ usizeMax then some (a + b) else none

/-- `-`. -/
def subU (a b : Nat) : Option Nat := if b ≤ a then some (a - b) else none

/-- `*`. -/
def mulU (a b : Nat) : Option Nat := if a * b ≤ usizeMax then some (a * b) else none

/-! ### Counts -/

def digit (c : Char) : Nat := c.toNat - '0'.toNat

/-- A key of a count; `none` when the key is none of it. -/
def accumulate (count : Option Nat) (c : Char) : Option Nat :=
  if c.isDigit && !(c == '0' && count.isNone) then
    some (min (min (count.getD 0 * 10) usizeMax + digit c) usizeMax)
  else none

/-- The count that keys type. -/
def typed : Option Nat → List Char → Option Nat
  | count, [] => count
  | count, c :: keys =>
      match accumulate count c with
      | some count => typed (some count) keys
      | none => none

/-- The number that digits spell. -/
def spelled (keys : List Char) : Nat := keys.foldl (fun n c => n * 10 + digit c) 0

/-- What is pending: the operator, and the counts before and behind it. -/
structure Pending where
  operator : Option Char
  opCount : Option Nat
  count : Option Nat
deriving Repr, DecidableEq

/-- `MAX_COUNT`. -/
def maxCount : Nat := 999999999

/-- `effective_count`. -/
def effectiveCount (p : Pending) : Nat :=
  min (min (p.opCount.getD 1 * p.count.getD 1) usizeMax) maxCount

/-- The count of `G`, `gg` and `%`. -/
def rawCount (p : Pending) : Option Nat := if p.operator.isSome then p.opCount.or p.count else p.count

/-! ### Motions -/

/-- `FindKind`. -/
inductive FindKind where
  | find
  | till
  | findBack
  | tillBack
deriving Repr, DecidableEq

namespace FindKind

def forward : FindKind → Bool
  | .find | .till => true
  | .findBack | .tillBack => false

def till? : FindKind → Bool
  | .till | .tillBack => true
  | .find | .findBack => false

def reversed : FindKind → FindKind
  | .find => .findBack
  | .findBack => .find
  | .till => .tillBack
  | .tillBack => .till

end FindKind

/-- `Motion`. -/
inductive Motion where
  | left
  | right
  | lineStart
  | firstNonBlank
  | lineEnd
  | down
  | up
  | displayDown
  | displayUp
  | displayLineStart
  | displayFirstNonBlank
  | displayLineEnd
  | gotoLine
  | gotoTop
  | word (big : Bool)
  | backWord (big : Bool)
  | endWord (big : Bool)
  | find (kind : FindKind) (target : Char)
  | findRepeat (reverse : Bool)
  | markJumpExact (name : Char) (setJump : Bool)
  | markJumpLine (name : Char) (setJump : Bool)
  | percent
  | sentence (forward : Bool)
  | paragraph (forward : Bool)
  | lineDownFirst
  | lineUpFirst
  | lineFirst
  | column
  | windowTop
  | windowMiddle
  | windowBottom
deriving Repr, DecidableEq

/-- Where a motion goes: a line, a byte column of a line, or a byte of the buffer. -/
inductive Place where
  | line (line : Nat)
  | cell (line col : Nat)
  | byte (idx : Nat)
deriving Repr, DecidableEq

/-- A buffer, a window and a cursor, as the motions ask for them. -/
structure View where
  lastLine : Nat
  line : Nat
  col : Nat
  cursorChar : Nat
  lineLen : Nat → Nat
  byteToLine : Nat → Nat
  /-- The end of the line a byte is on. -/
  eolOf : Nat → Nat
  prevGrapheme : Nat → Nat → Nat
  nextGrapheme : Nat → Nat → Nat
  charAt : Nat → Option Char
  /-- The graphemes of the cursor's line ahead of it and behind it, nearest first. -/
  ahead : List Nat
  behind : List Nat
  firstNonBlank : Nat → Nat
  foldLineStart : Nat → Nat
  foldLineEnd : Nat → Nat
  wordForward : Bool → Nat → Nat
  wordBackward : Bool → Nat → Nat
  wordEnd : Bool → Nat → Nat
  onWord : Bool
  atWordEnd : Bool → Bool
  lastFind : Option (FindKind × Char)
  markPosition : Char → Option (Nat × Nat)
  matchingBracket : Option Nat
  wraps : Bool
  segCount : Nat → Nat
  curSeg : Nat
  displayCell : Nat → Nat → Nat
  displayStart : Nat
  displayFirst : Nat
  displayEnd : Nat
  /-- A round of `sentence_motion` up to where it compares: `none` at the buffer's edge with more to go. -/
  sentence : Bool → Nat × Nat → Bool → Option (Nat × Nat)
  stepChar : Bool → Nat × Nat → Option (Nat × Nat)
  byteAtVirtcol : Nat → Nat
  top : Nat
  textHeight : Nat

/-- A step taken up to so often, until it stays. -/
def stepUntil {α : Type} [DecidableEq α] (step : α → α) : Nat → α → α
  | 0, x => x
  | n + 1, x => if step x = x then x else stepUntil step n (step x)

namespace View

variable (v : View)

/-- One line below, a closed fold as one. -/
def below (l : Nat) : Nat :=
  if v.foldLineEnd l ≥ v.lastLine then l else v.foldLineStart (v.foldLineEnd l + 1)

/-- `line_below_folds`. -/
def lineBelowFolds (line : Nat) : Nat → Nat
  | 0 => v.foldLineStart line
  | n + 1 => loop n (v.foldLineStart line)
where
  /-- The rounds left behind one, and the line. -/
  loop (n l : Nat) : Nat :=
    if v.foldLineEnd l ≥ v.lastLine then l
    else
      match n with
      | 0 => v.foldLineStart (v.foldLineEnd l + 1)
      | n + 1 => loop n (v.foldLineStart (v.foldLineEnd l + 1))

/-- One line above. -/
def above (l : Nat) : Nat := if l = 0 then l else v.foldLineStart (l - 1)

/-- `line_above_folds`. -/
def lineAboveFolds (line : Nat) : Nat → Nat
  | 0 => v.foldLineStart line
  | n + 1 => loop n (v.foldLineStart line)
where
  /-- The rounds left behind one, and the line. -/
  loop (n l : Nat) : Nat :=
    if l = 0 then l
    else
      match n with
      | 0 => v.foldLineStart (l - 1)
      | n + 1 => loop n (v.foldLineStart (l - 1))

/-- The loop of `find_char_target`. -/
def findLoop (target : Char) (count found : Nat) : List Nat → Option Nat
  | [] => none
  | col :: cols =>
      if v.charAt col = some target then
        if found + 1 = count then some col else findLoop target count (found + 1) cols
      else findLoop target count found cols

/-- `find_char_target`. -/
def findCharTarget (kind : FindKind) (target : Char) (count : Nat) (again : Bool) : Option Nat :=
  let cols := if kind.forward then v.ahead else v.behind
  let skip := kind.till? && again && (cols.head?.bind v.charAt == some target) &&
    (kind.forward || (cols.head?.any fun col => 0 < col))
  let hit := v.findLoop target count 0 (if skip then cols.drop 1 else cols)
  hit.map fun col =>
    if kind.till? then (if kind.forward then v.prevGrapheme v.line col else v.nextGrapheme v.line col)
    else col

/-- One display row down or up. -/
def displayStep (down : Bool) (at_ : Nat × Nat) : Nat × Nat :=
  if down then
    if at_.2 + 1 < v.segCount at_.1 then (at_.1, at_.2 + 1)
    else if at_.1 < v.lastLine then (at_.1 + 1, 0)
    else at_
  else if at_.2 > 0 then (at_.1, at_.2 - 1)
  else if at_.1 > 0 then (at_.1 - 1, v.segCount (at_.1 - 1) - 1)
  else at_

/-- `display_motion`. -/
def displayMotion (down : Bool) (count : Nat) : Option Place :=
  if v.wraps then
    let at_ := stepUntil (v.displayStep down) count (v.line, v.curSeg)
    some (.cell at_.1 (v.displayCell at_.1 at_.2))
  else if down then (addU v.line count).map fun l => .line (min l v.lastLine)
  else some (.line (v.line - count))

/-- The forward loop of `word_motion`, from a round on. -/
def wordLoop (big operator : Bool) (count n idx : Nat) : Nat → Option Nat
  | 0 => some idx
  | left + 1 =>
      let next := v.wordForward big idx
      if next = idx then some idx
      else
        (addU n 1).bind fun round =>
          if operator ∧ round = count ∧ idx < v.eolOf idx ∧ v.byteToLine next > v.byteToLine idx then
            some (v.eolOf idx)
          else wordLoop big operator count (n + 1) next left

/-- `word_motion`. -/
def wordMotion (p : Pending) (count : Nat) (big : Bool) : Option Nat :=
  if p.operator = some 'c' ∧ v.lineLen v.line = 0 then some v.cursorChar
  else if p.operator = some 'c' ∧ v.onWord then
    some (stepUntil (v.wordEnd big) (count - if v.atWordEnd big then 1 else 0) v.cursorChar)
  else v.wordLoop big p.operator.isSome count 0 v.cursorChar count

/-- The rounds of `sentence_motion`, within a fuel: outside, whether a count leaves the machine. -/
def sentenceLoop (forward : Bool) : Nat → Nat → Nat × Nat → Option (Option (Nat × Nat))
  | 0, _, pos => some (some pos)
  | fuel + 1, left, pos =>
      if left = 0 then some (some pos)
      else
        (subU left 1).bind fun left =>
          match v.sentence forward pos (0 < left) with
          | none => some none
          | some pos' =>
              if pos' = pos then
                match v.stepChar forward pos' with
                | none => if left > 0 then some none else some (some pos')
                | some pos'' => (addU left 1).bind fun left => sentenceLoop forward fuel left pos''
              else sentenceLoop forward fuel left pos'

/-- A round of `paragraph_motion`: to the next empty line behind one that is not, over the lines left. -/
def paragraphRound (forward : Bool) : Nat → Nat → Bool → Bool → Option Nat × Nat
  | 0, curr, _, _ => (none, curr)
  | lines + 1, curr, skipped, first =>
      let skipped := skipped || v.lineLen curr ≠ 0
      if !first && skipped && v.lineLen curr = 0 then (some curr, curr)
      else
        let curr := if first then (if forward then v.foldLineEnd curr else v.foldLineStart curr) else curr
        if forward then
          if curr < v.lastLine then paragraphRound forward lines (curr + 1) skipped false else (none, curr)
        else if 0 < curr then paragraphRound forward lines (curr - 1) skipped false
        else (none, curr)

/-- The rounds of `paragraph_motion`. -/
def paragraphLoop (forward : Bool) : Nat → Nat → Option Nat
  | 0, curr => some curr
  | left + 1, curr =>
      match v.paragraphRound forward (v.lastLine + 2) curr false true with
      | (some empty, _) => paragraphLoop forward left empty
      | (none, edge) => if 0 < left then none else some edge

/-- `paragraph_motion`. -/
def paragraphMotion (forward : Bool) (count : Nat) : Option Place :=
  (v.paragraphLoop forward (max count 1) v.line).map fun curr =>
    if forward ∧ curr = v.lastLine ∧ v.lineLen curr ≠ 0 then
      .cell curr (v.prevGrapheme curr (v.lineLen curr))
    else .line curr

/-- `resolve_motion`: outside, whether a count leaves the machine; inside, whether the motion fails. The
fuel is the rounds of `sentence_motion`. -/
def resolveMotion (fuel : Nat) (p : Pending) (motion : Motion) : Option (Option Place) :=
  let count := effectiveCount p
  match motion with
  | .gotoTop =>
      match rawCount p with
      | some n => (subU n 1).map fun l => some (.line (min l v.lastLine))
      | none => some (some (.line (min 0 v.lastLine)))
  | .findRepeat reverse =>
      some (v.lastFind.bind fun last =>
        (v.findCharTarget (if reverse then last.1.reversed else last.1) last.2 count true).map
          (.cell v.line))
  | .find kind target => some ((v.findCharTarget kind target count false).map (.cell v.line))
  | .markJumpExact name _ => some ((v.markPosition name).map fun pos => .cell pos.1 pos.2)
  | .markJumpLine name _ => some ((v.markPosition name).map fun pos => .line pos.1)
  | .left => some (some (.cell v.line (stepUntil (v.prevGrapheme v.line) count v.col)))
  | .right => some (some (.cell v.line (stepUntil (v.nextGrapheme v.line) count v.col)))
  | .lineStart => some (some (.cell v.line 0))
  | .firstNonBlank => some (some (.cell v.line (v.firstNonBlank v.line)))
  | .lineEnd =>
      (addU v.line count).bind fun sum => (subU sum 1).map fun l =>
        let l := min l v.lastLine
        some (.cell l (v.prevGrapheme l (v.lineLen l)))
  | .down =>
      some (if v.line ≥ v.lastLine then none
        else some (.line (min (v.lineBelowFolds v.line count) v.lastLine)))
  | .up => some (if v.line = 0 then none else some (.line (v.lineAboveFolds v.line count)))
  | .displayDown => (v.displayMotion true count).map some
  | .displayUp => (v.displayMotion false count).map some
  | .displayLineStart => some (some (.cell v.line v.displayStart))
  | .displayFirstNonBlank => some (some (.cell v.line v.displayFirst))
  | .displayLineEnd => some (some (.cell v.line v.displayEnd))
  | .gotoLine =>
      match rawCount p with
      | some n => (subU n 1).map fun l => some (.line (min l v.lastLine))
      | none => some (some (.line (min v.lastLine v.lastLine)))
  | .word big => (v.wordMotion p count big).map fun idx => some (.byte idx)
  | .backWord big => some (some (.byte (stepUntil (v.wordBackward big) count v.cursorChar)))
  | .endWord big => some (some (.byte (stepUntil (v.wordEnd big) count v.cursorChar)))
  | .percent =>
      match rawCount p with
      | some n =>
          if n > 100 then some none
          else
            let lines := v.lastLine + 1
            (mulU lines n).map fun product =>
              some (.line (min (max ((product + 99) / 100) 1) lines - 1))
      | none => some (v.matchingBracket.map .byte)
  | .sentence forward =>
      (v.sentenceLoop forward fuel (max count 1) (v.line, v.col)).map fun found =>
        found.map fun pos => .cell pos.1 pos.2
  | .paragraph forward => some (v.paragraphMotion forward count)
  | .lineDownFirst =>
      some (if v.line ≥ v.lastLine then none
        else some (.line (min (v.lineBelowFolds v.line count) v.lastLine)))
  | .lineUpFirst => some (if v.line = 0 then none else some (.line (v.lineAboveFolds v.line count)))
  | .lineFirst =>
      if count > 1 then
        if v.line ≥ v.lastLine then some none
        else (subU count 1).map fun n => some (.line (min (v.lineBelowFolds v.line n) v.lastLine))
      else some (some (.line v.line))
  | .column =>
      (subU count 1).map fun target =>
        some (.cell v.line (min (v.byteAtVirtcol target) (v.prevGrapheme v.line (v.lineLen v.line))))
  | .windowTop =>
      let top := min v.top v.lastLine
      let bottom := min (top + max v.textHeight 1 - 1) v.lastLine
      (addU top count).bind fun sum => (subU sum 1).map fun l => some (.line (min l bottom))
  | .windowMiddle =>
      let top := min v.top v.lastLine
      let bottom := min (top + max v.textHeight 1 - 1) v.lastLine
      some (some (.line (top + (bottom - top) / 2)))
  | .windowBottom =>
      let top := min v.top v.lastLine
      let bottom := min (top + max v.textHeight 1 - 1) v.lastLine
      (subU count 1).map fun n => some (.line (max (bottom - n) top))

/-- The last line of a doubled operator. -/
def doubledTarget (p : Pending) : Option Nat :=
  (addU v.line (effectiveCount p)).bind fun sum => (subU sum 1).map fun last => min last v.lastLine

end View

end Bemtvi.Core.Counts
