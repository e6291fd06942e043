/-
Module: Bemtvi.Core.FoldLevels
Purpose: From the levels of the lines to the ranges of the folds: the values of a `'foldexpr'` and
  the markers of a text as levels, and the stack that turns levels into ranges.  With exactly the
  texts whose levels are added up within 64 bits.
Trusted boundary: human-reviewed model of bemtvi-core/src/editor/fold.rs:1452-1478, 1548-1580,
  1640-1772 and 1899-1952, as a debug build computes, where an addition past 64 bits stops the editor
Main exports: FoldExprValue, parseFoldexprValue, resolveMaskedLevels, rangesFromLevels,
  rangesFromFoldexprValues, markerLevelsFrom, markerFolds, ExprFits, MarkersFit, fold_levels_fit_iff
-/
import Bemtvi.Core.FoldInputs
import Bemtvi.Lib.Word
import Mathlib

namespace Bemtvi.Core.FoldLevels

open Utf8
open Word (checkedAdd checkedAdd_eq_some)

/-! ### The values of an expression -/

inductive FoldExprValue where
  | level (k : Nat)
  /-- `-1`. -/
  | undefined
  /-- `=`. -/
  | same
  | add (k : Nat)
  | sub (k : Nat)
  /-- `>N`. -/
  | start (k : Nat)
  /-- `<N`. -/
  | stop (k : Nat)
deriving Repr, DecidableEq

/-- `parse::<usize>`: digits, behind a `+` at most, of a number that fits. -/
def parseUsize (text : Text) : Option Nat :=
  let digits := if text.head? = some '+' then text.drop 1 else text
  let value := digits.foldl (fun n c => 10 * n + (c.toNat - '0'.toNat)) 0
  if digits = [] ∨ digits.any (fun c => !c.isDigit) ∨ 2 ^ 64 ≤ value then none else some value

/-- `parse_foldexpr_value`. -/
def parseFoldexprValue (raw : Text) : FoldExprValue :=
  let v := trim raw
  let num := fun (text : Text) => parseUsize (trim text)
  if v = ['='] then .same
  else
    match v.head? with
    | some '>' => ((num (v.drop 1)).map .start).getD (.level 0)
    | some '<' => ((num (v.drop 1)).map .stop).getD (.level 0)
    | some 'a' | some 'A' => ((num (v.drop 1)).map .add).getD (.level 0)
    | some 's' | some 'S' => ((num (v.drop 1)).map .sub).getD (.level 0)
    | _ => if v = ['-', '1'] then .undefined else .level ((num v).getD 0)

/-- The level of a line, before the cap. -/
def FoldExprValue.raw (run : Nat) : FoldExprValue → Option Nat
  | .level k => some k
  | .undefined => some run
  | .same => some run
  | .add k => checkedAdd run k
  | .sub k => some (run - k)
  | .start k => some k
  | .stop k => some k

/-- The level carried into the next line. -/
def FoldExprValue.carry (foldnestmax lvl : Nat) : FoldExprValue → Nat
  | .stop k => min (k - 1) foldnestmax
  | _ => lvl

/-- The levels of lines by their values, from a running level; `none` when an addition overflows. -/
def exprLevels (foldnestmax : Nat) : Nat → List FoldExprValue → Option (List Nat)
  | _, [] => some []
  | run, value :: values =>
      (value.raw run).bind fun raw =>
        let lvl := min raw foldnestmax
        (exprLevels foldnestmax (value.carry foldnestmax lvl) values).map (lvl :: ·)

/-- The rest of the run of masked lines at the front, and the level of the line behind it. -/
def nextUnmasked : List (Nat × Bool) → Option Nat
  | [] => none
  | (level, masked) :: rows => if masked then nextUnmasked rows else some level

/-- `resolve_masked_levels`, behind the level `prev` of the last unmasked line. -/
def resolveFrom (prev : Option Nat) : List (Nat × Bool) → List Nat
  | [] => []
  | (level, masked) :: rows =>
      if masked then
        (match prev, nextUnmasked rows with
          | some p, some q => min p q
          | some p, none => p
          | none, some q => q
          | none, none => 0) :: resolveFrom prev rows
      else level :: resolveFrom (some level) rows

/-- `resolve_masked_levels`. -/
def resolveMaskedLevels (levels : List Nat) (mask : List Bool) : List Nat :=
  resolveFrom none (levels.zip mask)

/-! ### Ranges -/

/-- A fold with the level it is built at. -/
abbrev Range := Nat × Nat × Nat

/-- What `push` adds: a fold of two lines and more than `foldminlines`. -/
def emit (foldminlines start stop level : Nat) : List Range :=
  if start < stop ∧ foldminlines < stop - start + 1 then [(start, stop, level)] else []

/-- Close folds, the innermost first, until no more than `cur` are open. -/
def closeTo (foldminlines cur stop : Nat) : List Nat → List Range → List Nat × List Range
  | [], out => ([], out)
  | start :: rest, out =>
      if cur < rest.length + 1 then
        closeTo foldminlines cur stop rest (out ++ emit foldminlines start stop (rest.length + 1))
      else (start :: rest, out)

/-- Open folds at a line until `cur` are open. -/
def openTo (cur line : Nat) (opened : List Nat) : List Nat :=
  List.replicate (cur - opened.length) line ++ opened

/-- The loop of `ranges_from_levels`, from line `i` on, with the folds that are open. -/
def levelsLoop (foldminlines : Nat) :
    Nat → List Nat → List Nat → List Range → List Nat × List Range
  | _, [], opened, out => (opened, out)
  | i, cur :: levels, opened, out =>
      let (opened, out) := closeTo foldminlines cur (i - 1) opened out
      levelsLoop foldminlines (i + 1) levels (openTo cur i opened) out

/-- The order of the sort: by start, end and level. -/
def rangeLe (a b : Range) : Prop :=
  a.1 < b.1 ∨ (a.1 = b.1 ∧ (a.2.1 < b.2.1 ∨ (a.2.1 = b.2.1 ∧ a.2.2 ≤ b.2.2)))

instance : DecidableRel rangeLe := fun _ _ => inferInstanceAs (Decidable (_ ∨ _))

def sameRange (a b : Range) : Bool := a.1 == b.1 && a.2.1 == b.2.1

/-- `dedup_by` of the range, behind one that is kept. -/
def dedupFrom (kept : Range) : List Range → List Range
  | [] => [kept]
  | range :: ranges =>
      if sameRange range kept then dedupFrom kept ranges else kept :: dedupFrom range ranges

def dedupRanges : List Range → List Range
  | [] => []
  | range :: ranges => dedupFrom range ranges

/-- `ranges_from_levels`. -/
def rangesFromLevels (levels : List Nat) (foldminlines : Nat) : List Range :=
  let (opened, out) := levelsLoop foldminlines 0 levels [] []
  let out := (closeTo foldminlines 0 (levels.length - 1) opened out).2
  dedupRanges (out.insertionSort rangeLe)

/-! ### Both sources of levels -/

/-- The values of the lines, `0` where there is none. -/
def foldexprValues (values : List (Option Text)) (lineCount : Nat) : List FoldExprValue :=
  (List.range lineCount).map fun i => parseFoldexprValue ((values[i]?.join).getD ['0'])

/-- The levels that `ranges_from_foldexpr_values` records. -/
def foldexprLevels (values : List (Option Text)) (lineCount foldnestmax : Nat) :
    Option (List Nat) :=
  let parsed := foldexprValues values lineCount
  (exprLevels foldnestmax 0 parsed).map fun levels =>
    resolveMaskedLevels levels (parsed.map fun value => value = .undefined)

/-- `ranges_from_foldexpr_values`. -/
def rangesFromFoldexprValues (values : List (Option Text))
    (lineCount foldnestmax foldminlines : Nat) : Option (List Range) :=
  (foldexprLevels values lineCount foldnestmax).map (rangesFromLevels · foldminlines)

/-- One marker, on a line that starts at a level: the level of the line, and the next one's. -/
def markerStep (startLvl : Nat) (levels : Nat × Nat) (tok : MarkerTok) : Option (Nat × Nat) :=
  match tok with
  | (true, num) =>
      if 0 < num.getD 0 then some (num.getD 0, num.getD 0)
      else
        (checkedAdd levels.1 1).bind fun lvl =>
          (checkedAdd levels.2 1).map fun next => (lvl, next)
  | (false, num) =>
      if 0 < num.getD 0 then some (min (num.getD 0) startLvl, num.getD 0 - 1)
      else some (levels.1, levels.2 - 1)

/-- `marker_levels_from`. -/
def markerLevelsFrom (toks : List MarkerTok) (startLvl : Nat) : Option (Nat × Nat) :=
  toks.foldlM (markerStep startLvl) (startLvl, startLvl)

/-- The levels that `compute_marker_folds` records, from a running level. -/
def markerLevels (nestmax : Nat) : Nat → List (Option (List MarkerTok)) → Option (List Nat)
  | _, [] => some []
  | run, none :: perLine => (markerLevels nestmax run perLine).map (min run nestmax :: ·)
  | run, some toks :: perLine =>
      (markerLevelsFrom toks run).bind fun (lvl, next) =>
        (markerLevels nestmax next perLine).map (min lvl nestmax :: ·)

/-- `compute_marker_folds`, from the markers of the lines. -/
def markerFolds (perLine : List (Option (List MarkerTok))) (nestmax foldminlines : Nat) :
    Option (List Range) :=
  (markerLevels nestmax 0 perLine).map (rangesFromLevels · foldminlines)

/-! ### Levels as the rules have them -/

/-- The level of a line before the cap, in exact arithmetic. -/
def FoldExprValue.exactRaw (run : Nat) : FoldExprValue → Nat
  | .level k => k
  | .undefined => run
  | .same => run
  | .add k => run + k
  | .sub k => run - k
  | .start k => k
  | .stop k => k

/-- The level that lines carry behind them. -/
def carried (foldnestmax : Nat) (run : Nat) (values : List FoldExprValue) : Nat :=
  values.foldl (fun run value => value.carry foldnestmax (min (value.exactRaw run) foldnestmax)) run

/-- Every `aN` meets a carried level that it can be added to. -/
def ExprFits (foldnestmax run : Nat) (values : List FoldExprValue) : Prop :=
  ∀ front k back, values = front ++ .add k :: back → carried foldnestmax run front + k < 2 ^ 64

/-- One marker in exact arithmetic. -/
def markerExact (startLvl : Nat) (levels : Nat × Nat) (tok : MarkerTok) : Nat × Nat :=
  match tok with
  | (true, num) =>
      if 0 < num.getD 0 then (num.getD 0, num.getD 0) else (levels.1 + 1, levels.2 + 1)
  | (false, num) =>
      if 0 < num.getD 0 then (min (num.getD 0) startLvl, num.getD 0 - 1)
      else (levels.1, levels.2 - 1)

def lineExact (startLvl : Nat) (toks : List MarkerTok) : Nat × Nat :=
  toks.foldl (markerExact startLvl) (startLvl, startLvl)

/-- The level that lines with markers carry behind them. -/
def markersCarried (run : Nat) (perLine : List (Option (List MarkerTok))) : Nat :=
  perLine.foldl (fun run toks => (toks.map fun toks => (lineExact run toks).2).getD run) run

/-- Every start marker without a number meets levels that one can be added to. -/
def LineFits (startLvl : Nat) (levels : Nat × Nat) (toks : List MarkerTok) : Prop :=
  ∀ before num after, toks = before ++ (true, num) :: after → num.getD 0 = 0 →
    (before.foldl (markerExact startLvl) levels).1 + 1 < 2 ^ 64 ∧
      (before.foldl (markerExact startLvl) levels).2 + 1 < 2 ^ 64

def MarkersFit (run : Nat) (perLine : List (Option (List MarkerTok))) : Prop :=
  ∀ front toks back, perLine = front ++ some toks :: back →
    LineFits (markersCarried run front) (markersCarried run front, markersCarried run front) toks

/-! ### Where no addition overflows -/

/-- What holds of a split of a list, at its head and behind it. -/
theorem forall_split_cons {α : Type} {P : List α → α → List α → Prop} {x : α} {l : List α} :
    (∀ front y back, x :: l = front ++ y :: back → P front y back) ↔
      P [] x l ∧ ∀ front y back, l = front ++ y :: back → P (x :: front) y back := by
  constructor
  · intro all
    refine ⟨all [] x l rfl, ?_⟩
    rintro front y back rfl
    exact all (x :: front) y back rfl
  · rintro ⟨first, later⟩ front y back split
    cases front with
    | nil =>
        cases split
        exact first
    | cons z front =>
        obtain ⟨rfl, rest⟩ := List.cons.inj split
        exact later front y back rest

variable {foldnestmax run startLvl : Nat} {value : FoldExprValue} {values : List FoldExprValue}
  {rows : List (Nat × Bool)} {levels levels' : Nat × Nat} {tok : MarkerTok}
  {toks : List MarkerTok} {perLine : List (Option (List MarkerTok))}

theorem exprFits_cons : ExprFits foldnestmax run (value :: values) ↔
      (∀ k, value = .add k → run + k < 2 ^ 64) ∧
        ExprFits foldnestmax
          (value.carry foldnestmax (min (value.exactRaw run) foldnestmax)) values := by
  have split := forall_split_cons (x := value) (l := values)
    (P := fun front y _ => ∀ k, y = .add k → carried foldnestmax run front + k < 2 ^ 64)
  constructor
  · intro fits
    obtain ⟨first, later⟩ := split.1 (by
      rintro front y back whole k rfl
      exact fits front k back whole)
    exact ⟨first, fun front k back whole => later front _ back whole k rfl⟩
  · rintro ⟨first, later⟩ front k back whole
    refine split.2 ⟨first, ?_⟩ front _ back whole k rfl
    rintro front y back whole k rfl
    exact later front k back whole

theorem raw_eq_some {raw : Nat} :
    value.raw run = some raw ↔ (∀ k, value = .add k → run + k < 2 ^ 64) ∧ value.exactRaw run = raw := by
  cases value with
  | add k =>
      rw [FoldExprValue.raw, checkedAdd_eq_some]
      simp [FoldExprValue.exactRaw, eq_comm]
  | _ => simp [FoldExprValue.raw, FoldExprValue.exactRaw]

/-- The levels of the lines are there exactly if every addition fits, and none is past the cap. -/
theorem exprLevels_spec (foldnestmax : Nat) (values : List FoldExprValue) (run : Nat) :
    (ExprFits foldnestmax run values → ∃ levels, exprLevels foldnestmax run values = some levels) ∧
      ∀ levels, exprLevels foldnestmax run values = some levels →
        ExprFits foldnestmax run values ∧ ∀ level ∈ levels, level ≤ foldnestmax := by
  induction values generalizing run with
  | nil =>
      refine ⟨fun _ => ⟨[], rfl⟩, ?_⟩
      intro levels found
      cases found
      refine ⟨?_, fun level member => by cases member⟩
      intro front k back whole
      cases front <;> cases whole
  | cons value values ih =>
      obtain ⟨enough, sound⟩ := ih (value.carry foldnestmax (min (value.exactRaw run) foldnestmax))
      rw [exprFits_cons]
      constructor
      · rintro ⟨first, later⟩
        obtain ⟨levels, found⟩ := enough later
        rw [exprLevels, raw_eq_some.2 ⟨first, rfl⟩, Option.bind_some]
        simp only [found, Option.map_some]
        exact ⟨_, rfl⟩
      · intro levels found
        obtain ⟨raw, first, found⟩ := Option.bind_eq_some_iff.1 found
        obtain ⟨fits, rfl⟩ := raw_eq_some.1 first
        obtain ⟨rest, tail, rfl⟩ := Option.map_eq_some_iff.1 found
        obtain ⟨later, capped⟩ := sound rest tail
        refine ⟨⟨fits, later⟩, ?_⟩
        intro level member
        rcases List.mem_cons.1 member with rfl | member
        · exact Nat.min_le_right _ _
        · exact capped level member

theorem nextUnmasked_mem {level : Nat} (next : nextUnmasked rows = some level) :
    ∃ masked, (level, masked) ∈ rows := by
  induction rows with
  | nil => cases next
  | cons row rows ih =>
      rw [nextUnmasked] at next
      split at next
      · obtain ⟨masked, member⟩ := ih next
        exact ⟨masked, List.mem_cons_of_mem _ member⟩
      · cases next
        exact ⟨row.2, List.mem_cons_self⟩

/-- A masked line takes no level above all that there are. -/
theorem resolveFrom_le {prev : Option Nat} {bound : Nat}
    (before : ∀ level, prev = some level → level ≤ bound) (below : ∀ row ∈ rows, row.1 ≤ bound) :
    ∀ level ∈ resolveFrom prev rows, level ≤ bound := by
  induction rows generalizing prev with
  | nil =>
      intro level member
      cases member
  | cons row rows ih =>
      obtain ⟨own, masked⟩ := row
      have later : ∀ row ∈ rows, row.1 ≤ bound := fun row member =>
        below row (List.mem_cons_of_mem _ member)
      intro level member
      unfold resolveFrom at member
      split at member
      · rcases List.mem_cons.1 member with rfl | member
        · cases next : nextUnmasked rows with
          | none =>
              cases prev with
              | none => exact Nat.zero_le _
              | some p => exact before p rfl
          | some q =>
              obtain ⟨masked, there⟩ := nextUnmasked_mem next
              have small : q ≤ bound := later _ there
              cases prev with
              | none => exact small
              | some p => exact Nat.le_trans (Nat.min_le_right _ _) small
        · exact ih before later level member
      · have here := below (own, masked) List.mem_cons_self
        rcases List.mem_cons.1 member with rfl | member
        · exact here
        · refine ih ?_ later level member
          intro level same
          cases same
          exact here

theorem lineFits_cons : LineFits startLvl levels (tok :: toks) ↔
      (∀ num, tok = (true, num) → num.getD 0 = 0 →
        levels.1 + 1 < 2 ^ 64 ∧ levels.2 + 1 < 2 ^ 64) ∧
          LineFits startLvl (markerExact startLvl levels tok) toks := by
  have split := forall_split_cons (x := tok) (l := toks)
    (P := fun before y _ => ∀ num, y = (true, num) → num.getD 0 = 0 →
      (before.foldl (markerExact startLvl) levels).1 + 1 < 2 ^ 64 ∧
        (before.foldl (markerExact startLvl) levels).2 + 1 < 2 ^ 64)
  constructor
  · intro fits
    obtain ⟨first, later⟩ := split.1 (by
      rintro before y after whole num rfl
      exact fits before num after whole)
    exact ⟨first, fun before num after whole => later before _ after whole num rfl⟩
  · rintro ⟨first, later⟩ before num after whole
    refine split.2 ⟨first, ?_⟩ before _ after whole num rfl
    rintro before y after whole num rfl
    exact later before num after whole

theorem markerStep_eq_some : markerStep startLvl levels tok = some levels' ↔
      (∀ num, tok = (true, num) → num.getD 0 = 0 →
        levels.1 + 1 < 2 ^ 64 ∧ levels.2 + 1 < 2 ^ 64) ∧
          markerExact startLvl levels tok = levels' := by
  obtain ⟨isOpen, num⟩ := tok
  cases isOpen with
  | false =>
      unfold markerStep markerExact
      simp only
      split <;> simp
  | true =>
      unfold markerStep markerExact
      simp only
      split
      · next positive =>
          constructor
          · intro same
            cases same
            refine ⟨?_, rfl⟩
            intro other same zero
            cases same
            omega
          · rintro ⟨-, rfl⟩
            rfl
      · next plain =>
          constructor
          · intro found
            obtain ⟨lvl, first, found⟩ := Option.bind_eq_some_iff.1 found
            obtain ⟨next, second, rfl⟩ := Option.map_eq_some_iff.1 found
            obtain ⟨fits, rfl⟩ := checkedAdd_eq_some.1 first
            obtain ⟨fits', rfl⟩ := checkedAdd_eq_some.1 second
            exact ⟨fun _ _ _ => ⟨fits, fits'⟩, rfl⟩
          · rintro ⟨fits, rfl⟩
            obtain ⟨first, second⟩ := fits num rfl (by omega)
            rw [checkedAdd_eq_some.2 ⟨first, rfl⟩, Option.bind_some,
              checkedAdd_eq_some.2 ⟨second, rfl⟩, Option.map_some]

theorem markerFold_eq_some : toks.foldlM (markerStep startLvl) levels = some levels' ↔
      LineFits startLvl levels toks ∧ toks.foldl (markerExact startLvl) levels = levels' := by
  induction toks generalizing levels with
  | nil =>
      constructor
      · intro same
        cases same
        refine ⟨?_, rfl⟩
        intro before num after whole
        cases before <;> cases whole
      · rintro ⟨-, rfl⟩
        rfl
  | cons tok toks ih =>
      rw [List.foldlM_cons, lineFits_cons, List.foldl_cons]
      constructor
      · intro found
        obtain ⟨middle, first, found⟩ := Option.bind_eq_some_iff.1 found
        obtain ⟨fits, rfl⟩ := markerStep_eq_some.1 first
        obtain ⟨later, same⟩ := ih.1 found
        exact ⟨⟨fits, later⟩, same⟩
      · rintro ⟨⟨fits, later⟩, same⟩
        exact Option.bind_eq_some_iff.2
          ⟨_, markerStep_eq_some.2 ⟨fits, rfl⟩, ih.2 ⟨later, same⟩⟩

theorem markerLevelsFrom_eq_some : markerLevelsFrom toks startLvl = some levels ↔
      LineFits startLvl (startLvl, startLvl) toks ∧ lineExact startLvl toks = levels :=
  markerFold_eq_some

theorem markersFit_cons {toks : Option (List MarkerTok)} : MarkersFit run (toks :: perLine) ↔
      (∀ line, toks = some line → LineFits run (run, run) line) ∧
        MarkersFit ((toks.map fun toks => (lineExact run toks).2).getD run) perLine := by
  have split := forall_split_cons (x := toks) (l := perLine)
    (P := fun front y _ => ∀ line, y = some line → LineFits (markersCarried run front)
      (markersCarried run front, markersCarried run front) line)
  constructor
  · intro fits
    obtain ⟨first, later⟩ := split.1 (by
      rintro front y back whole line rfl
      exact fits front line back whole)
    exact ⟨first, fun front line back whole => later front _ back whole line rfl⟩
  · rintro ⟨first, later⟩ front line back whole
    refine split.2 ⟨first, ?_⟩ front _ back whole line rfl
    rintro front y back whole line rfl
    exact later front line back whole

theorem markerLevels_spec (nestmax : Nat) (perLine : List (Option (List MarkerTok))) (run : Nat) :
    (MarkersFit run perLine → ∃ levels, markerLevels nestmax run perLine = some levels) ∧
      ∀ levels, markerLevels nestmax run perLine = some levels →
        MarkersFit run perLine ∧ ∀ level ∈ levels, level ≤ nestmax := by
  induction perLine generalizing run with
  | nil =>
      refine ⟨fun _ => ⟨[], rfl⟩, ?_⟩
      intro levels found
      cases found
      refine ⟨?_, fun level member => by cases member⟩
      intro front toks back whole
      cases front <;> cases whole
  | cons toks perLine ih =>
      rw [markersFit_cons]
      cases toks with
      | none =>
          obtain ⟨enough, sound⟩ := ih run
          constructor
          · rintro ⟨-, later⟩
            obtain ⟨levels, found⟩ := enough later
            rw [markerLevels, found]
            exact ⟨_, rfl⟩
          · intro levels found
            obtain ⟨rest, tail, rfl⟩ := Option.map_eq_some_iff.1 found
            obtain ⟨later, capped⟩ := sound rest tail
            refine ⟨⟨fun line same => (by cases same), later⟩, ?_⟩
            intro level member
            rcases List.mem_cons.1 member with rfl | member
            · exact Nat.min_le_right _ _
            · exact capped level member
      | some toks =>
          obtain ⟨enough, sound⟩ := ih (lineExact run toks).2
          constructor
          · rintro ⟨first, later⟩
            obtain ⟨levels, found⟩ := enough later
            rw [markerLevels, markerLevelsFrom_eq_some.2 ⟨first toks rfl, rfl⟩, Option.bind_some]
            simp only [found, Option.map_some]
            exact ⟨_, rfl⟩
          · intro levels found
            obtain ⟨reached, first, found⟩ := Option.bind_eq_some_iff.1 found
            obtain ⟨fits, rfl⟩ := markerLevelsFrom_eq_some.1 first
            obtain ⟨rest, tail, rfl⟩ := Option.map_eq_some_iff.1 found
            obtain ⟨later, capped⟩ := sound rest tail
            refine ⟨⟨?_, later⟩, ?_⟩
            · intro line same
              cases same
              exact fits
            · intro level member
              rcases List.mem_cons.1 member with rfl | member
              · exact Nat.min_le_right _ _
              · exact capped level member

/-! ### Numbers that always fit -/

theorem carried_le (values : List FoldExprValue) (below : run ≤ foldnestmax) :
    carried foldnestmax run values ≤ foldnestmax := by
  induction values generalizing run with
  | nil => exact below
  | cons value values ih =>
      apply ih
      cases value <;> exact Nat.min_le_right _ _

/-- An expression whose `aN` stay that far from 2^64 never overflows. -/
theorem exprFits_of_small (small : ∀ k, .add k ∈ values → foldnestmax + k < 2 ^ 64) :
    ExprFits foldnestmax 0 values := by
  rintro front k back rfl
  have reached := carried_le front (Nat.zero_le foldnestmax)
  have far := small k (by simp)
  omega

/-- A marker raises the levels to its number, or by one. -/
theorem markerExact_le (startLvl bound : Nat) (toks : List MarkerTok) (levels : Nat × Nat)
    (numbers : ∀ tok ∈ toks, tok.2.getD 0 ≤ bound) (below : levels.1 ≤ bound ∧ levels.2 ≤ bound) :
    (toks.foldl (markerExact startLvl) levels).1 ≤ bound + toks.length ∧
      (toks.foldl (markerExact startLvl) levels).2 ≤ bound + toks.length := by
  induction toks generalizing levels bound with
  | nil => exact below
  | cons tok toks ih =>
      have here := numbers tok List.mem_cons_self
      have step : (markerExact startLvl levels tok).1 ≤ bound + 1 ∧
          (markerExact startLvl levels tok).2 ≤ bound + 1 := by
        obtain ⟨isOpen, num⟩ := tok
        cases isOpen <;> unfold markerExact <;> simp only at here ⊢ <;> split <;>
          simp only <;> omega
      have later := ih (bound + 1) (markerExact startLvl levels tok)
        (fun other member => Nat.le_succ_of_le (numbers other (List.mem_cons_of_mem _ member))) step
      rw [List.foldl_cons, List.length_cons]
      omega

/-- Markers whose numbers stay further from 2^64 than there are markers never overflow. -/
theorem markersFit_of_small (bound run : Nat)
    (numbers : ∀ toks, some toks ∈ perLine → ∀ tok ∈ toks, tok.2.getD 0 ≤ bound)
    (below : run ≤ bound)
    (room : bound + (perLine.map fun toks => (toks.getD []).length).sum < 2 ^ 64) :
    MarkersFit run perLine := by
  induction perLine generalizing run bound with
  | nil =>
      intro front toks back whole
      cases front <;> cases whole
  | cons toks perLine ih =>
      rw [List.map_cons, List.sum_cons] at room
      refine markersFit_cons.2 ⟨?_, ?_⟩
      · rintro line rfl before num after rfl -
        have reached := markerExact_le run bound before (run, run)
          (fun tok member => numbers _ List.mem_cons_self tok (List.mem_append_left _ member))
          ⟨below, below⟩
        simp only [Option.getD_some, List.length_append, List.length_cons] at room
        omega
      · refine ih (bound + (toks.getD []).length) _ ?_ ?_ (by omega)
        · intro line member tok there
          exact Nat.le_add_right_of_le (numbers line (List.mem_cons_of_mem _ member) tok there)
        · cases toks with
          | none => exact below
          | some line =>
              exact (markerExact_le run bound line (run, run)
                (fun tok member => numbers line List.mem_cons_self tok member) ⟨below, below⟩).2

/-- **Both sources of levels.**  No addition overflows exactly if every `aN`, and every start marker
without a number, meets a level that it can be added to; and then no recorded level is past
`'foldnestmax'`. -/
theorem fold_levels_fit_iff (values : List (Option Text)) (lineCount foldnestmax : Nat)
    (perLine : List (Option (List MarkerTok))) :
    ((∃ levels, foldexprLevels values lineCount foldnestmax = some levels ∧
        ∀ level ∈ levels, level ≤ foldnestmax) ↔
      ExprFits foldnestmax 0 (foldexprValues values lineCount)) ∧
    ((∃ levels, markerLevels foldnestmax 0 perLine = some levels ∧
        ∀ level ∈ levels, level ≤ foldnestmax) ↔ MarkersFit 0 perLine) := by
  constructor
  · obtain ⟨enough, sound⟩ := exprLevels_spec foldnestmax (foldexprValues values lineCount) 0
    constructor
    · rintro ⟨levels, found, -⟩
      obtain ⟨raw, found, -⟩ := Option.map_eq_some_iff.1 found
      exact (sound raw found).1
    · intro fits
      obtain ⟨raw, found⟩ := enough fits
      refine ⟨_, Option.map_eq_some_iff.2 ⟨raw, found, rfl⟩, ?_⟩
      apply resolveFrom_le
      · intro level same
        cases same
      · intro row member
        exact (sound raw found).2 row.1 (List.of_mem_zip member).1
  · obtain ⟨enough, sound⟩ := markerLevels_spec foldnestmax perLine 0
    constructor
    · rintro ⟨levels, found, -⟩
      exact (sound levels found).1
    · intro fits
      obtain ⟨levels, found⟩ := enough fits
      exact ⟨levels, found, (sound levels found).2⟩

/-- The second line adds 2^64-1 to level 1; and a start marker stands behind one of level 2^64-1. -/
theorem fold_levels_overflow :
    rangesFromFoldexprValues [some ['1'], some ("a18446744073709551615".toList)] 2 20 1 = none ∧
      markerFolds ([("\x7b\x7b\x7b18446744073709551615").toList, "\x7b\x7b\x7b".toList].map fun line =>
        markerToksOf line "\x7b\x7b\x7b".toList "\x7d\x7d\x7d".toList) 20 1 = none := by
  decide +kernel

end Bemtvi.Core.FoldLevels
