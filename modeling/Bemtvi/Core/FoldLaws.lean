/-
Module: Bemtvi.Core.FoldLaws
Purpose: When the fold that collapses a line and the regions of a frame agree: for every fold set a
  run of operations leaves, exactly when no closed fold that is the widest over a line is overtaken
  by a wider one on another of its lines.
Trusted boundary: none
Main exports: Sorted, Tops, sweep_spec, Settled, Agrees, fold_readings_agree
-/
import Bemtvi.Core.Fold

namespace Bemtvi.Core

namespace Fold

theorem contains_iff {fold : Fold} {line : Nat} :
    fold.contains line = true ↔ fold.start ≤ line ∧ line ≤ fold.end_ := by
  simp [contains]

/-- `a` does not come behind `b`: it starts earlier, or there and ends no earlier. -/
def Before (a b : Fold) : Prop := a.start < b.start ∨ a.start = b.start ∧ b.end_ ≤ a.end_

/-- The fold `max_by_key` prefers over another: wider, or as wide and later. -/
def Outranks (g f : Fold) : Prop :=
  f.lineCount < g.lineCount ∨ f.lineCount = g.lineCount ∧ f.start < g.start

theorem le_iff {a b : Fold} : a.le b = true ↔ a.Before b := by
  simp [le, Before]

end Fold

/-! ### The order of the set -/

/-- Outer folds first: the order every operation leaves. -/
def FoldState.Sorted (state : FoldState) : Prop := state.folds.Pairwise Fold.Before

namespace FoldState

theorem sort_sorted (state : FoldState) : state.sort.Sorted := by
  have total : Std.Total fun a b : Fold => a.le b = true := ⟨by
    intro a b
    simp only [Fold.le_iff, Fold.Before]
    omega⟩
  have trans : IsTrans Fold fun a b => a.le b = true := ⟨by
    intro a b c
    simp only [Fold.le_iff, Fold.Before]
    omega⟩
  have sorted := List.pairwise_insertionSort (fun a b : Fold => a.le b = true) state.folds
  exact sorted.imp Fold.le_iff.1

variable {state : FoldState} {folds : List Fold}

/-- An operation that leaves every range where it was leaves the order as it was. -/
theorem Sorted.map (sorted : state.Sorted) {change : Fold → Fold}
    (start : ∀ fold, (change fold).start = fold.start)
    (end_ : ∀ fold, (change fold).end_ = fold.end_) : Sorted ⟨state.folds.map change⟩ := by
  refine List.pairwise_map.2 (sorted.imp ?_)
  intro a b before
  rw [Fold.Before, start, start, end_, end_]
  exact before

theorem Sorted.sublist (sorted : state.Sorted) (fewer : folds.Sublist state.folds) :
    Sorted ⟨folds⟩ :=
  List.Pairwise.sublist fewer sorted

theorem closeFirst_ranges (keep : Fold → Bool) (folds : List Fold) :
    (closeFirst keep folds).map (fun fold => (fold.start, fold.end_)) =
      folds.map fun fold => (fold.start, fold.end_) := by
  induction folds with
  | nil => rfl
  | cons fold folds ih =>
      rw [closeFirst]
      split
      · rfl
      · rw [List.map_cons, List.map_cons, ih]

/-- Only the ranges count for the order. -/
theorem Sorted.ranges (sorted : state.Sorted)
    (same : folds.map (fun fold => (fold.start, fold.end_)) =
      state.folds.map fun fold => (fold.start, fold.end_)) : Sorted ⟨folds⟩ := by
  let before : Nat × Nat → Nat × Nat → Prop := fun a b =>
    a.1 < b.1 ∨ a.1 = b.1 ∧ b.2 ≤ a.2
  have ranges : (state.folds.map fun fold => (fold.start, fold.end_)).Pairwise before :=
    List.pairwise_map.2 sorted
  rw [← same, List.pairwise_map] at ranges
  exact ranges

theorem narrowest_some {keep : Fold → Bool} {first : Nat} {index : Nat} {fold : Fold}
    (found : narrowest keep first folds = some (index, fold)) :
    first ≤ index ∧ folds[index - first]? = some fold := by
  induction folds generalizing first with
  | nil => cases found
  | cons head folds ih =>
      have later : narrowest keep (first + 1) folds = some (index, fold) →
          first ≤ index ∧ (head :: folds)[index - first]? = some fold := by
        intro there
        obtain ⟨behind, same⟩ := ih there
        obtain ⟨offset, rfl⟩ : ∃ offset, index = first + 1 + offset :=
          Nat.exists_eq_add_of_le behind
        rw [Nat.add_sub_cancel_left] at same
        have shifted : first + 1 + offset - first = offset + 1 := by omega
        rw [shifted]
        exact ⟨by omega, same⟩
      have here : (first, head) = (index, fold) →
          first ≤ index ∧ (head :: folds)[index - first]? = some fold := by
        intro same
        cases same
        simp
      simp only [narrowest] at found
      split at found
      · split at found
        · exact here (Option.some.inj found)
        · rename_i best inner
          split at found
          · exact later (inner.trans found)
          · exact here (Option.some.inj found)
      · exact later found

theorem Sorted.step (sorted : state.Sorted) (event : FoldEvent) : (state.step event).Sorted := by
  cases event with
  | create start e =>
      rw [FoldState.step, FoldState.create]
      split
      · exact sorted
      · split
        · exact sorted.ranges (closeFirst_ranges _ _)
        · exact sort_sorted _
  | restore folds => exact sort_sorted _
  | deleteAt line =>
      rw [FoldState.step, FoldState.deleteAt]
      split
      · exact sorted.sublist (List.eraseIdx_sublist ..)
      · exact sorted
  | deleteAll => exact List.Pairwise.nil
  | openOne line =>
      rw [FoldState.step, FoldState.openOne]
      split
      · exact sorted
      · refine sorted.map ?_ ?_
        · intro fold
          split <;> rfl
        · intro fold
          split <;> rfl
  | closeOne line =>
      rw [FoldState.step, FoldState.closeOne]
      split
      · exact sorted
      · rename_i index fold found
        refine sorted.ranges ?_
        obtain ⟨-, there⟩ := narrowest_some found
        rw [Nat.sub_zero] at there
        obtain ⟨inside, same⟩ := List.getElem?_eq_some_iff.1 there
        have bound : index <
            (state.folds.map fun fold => (fold.start, fold.end_)).length := by
          simpa using inside
        have range : (fold.start, fold.end_) =
            (state.folds.map fun fold => (fold.start, fold.end_))[index] := by
          simp [same]
        rw [List.map_set]
        simp only
        rw [range, List.set_getElem_self]
  | openRecursive line =>
      refine sorted.map ?_ ?_
      · intro fold
        split <;> rfl
      · intro fold
        split <;> rfl
  | closeRecursive line =>
      refine sorted.map ?_ ?_
      · intro fold
        split <;> rfl
      · intro fold
        split <;> rfl
  | openAll => exact sorted.map (fun fold => rfl) fun fold => rfl
  | closeAll => exact sorted.map (fun fold => rfl) fun fold => rfl
  | applyFoldlevel foldlevel => exact sorted.map (fun fold => rfl) fun fold => rfl
  | rebuildComputed ranges foldlevel => exact sort_sorted _
  | adjust batch lineCount =>
      rw [FoldState.step, FoldState.adjust]
      split
      · exact sorted
      · exact (sort_sorted _).sublist (List.destutter_sublist _ _)

theorem sorted_run (events : List FoldEvent) : (events.foldl FoldState.step .empty).Sorted := by
  refine List.foldlRecOn events FoldState.step List.Pairwise.nil ?_
  intro state sorted event _
  exact sorted.step event

end FoldState

/-! ### The widest fold over a line -/

theorem widest_mem {folds : List Fold} {fold : Fold} (best : widest folds = some fold) :
    fold ∈ folds := by
  induction folds generalizing fold with
  | nil => cases best
  | cons head folds ih =>
      simp only [widest] at best
      cases later : widest folds with
      | none =>
          rw [later] at best
          cases best
          exact List.mem_cons_self
      | some other =>
          rw [later] at best
          dsimp only at best
          split at best
          · cases best
            exact List.mem_cons_self
          · cases best
            exact List.mem_cons_of_mem _ (ih later)

theorem widest_eq_none {folds : List Fold} : widest folds = none ↔ folds = [] := by
  constructor
  · intro nothing
    cases folds with
    | nil => rfl
    | cons head folds =>
        simp only [widest] at nothing
        split at nothing
        · cases nothing
        · split at nothing <;> cases nothing
  · rintro rfl
    rfl

/-- Nothing outranks the widest of a sorted list. -/
theorem widest_unbeaten {folds : List Fold} (sorted : folds.Pairwise Fold.Before) {fold : Fold}
    (best : widest folds = some fold) {other : Fold} (mem : other ∈ folds) :
    ¬ other.Outranks fold := by
  induction folds generalizing fold with
  | nil => cases mem
  | cons head folds ih =>
      obtain ⟨first, sorted⟩ := List.pairwise_cons.1 sorted
      simp only [widest] at best
      cases later : widest folds with
      | none =>
          rw [later] at best
          cases best
          obtain rfl : folds = [] := widest_eq_none.1 later
          rw [List.mem_singleton] at mem
          subst mem
          simp [Fold.Outranks]
      | some rest =>
          rw [later] at best
          dsimp only at best
          have behind := first rest (widest_mem later)
          rw [List.mem_cons] at mem
          rw [Fold.Before] at behind
          rcases mem with rfl | mem
          · split at best
            · cases best
              simp [Fold.Outranks]
            · cases best
              simp only [Fold.Outranks]
              omega
          · have unbeaten := ih sorted later mem
            simp only [Fold.Outranks] at unbeaten ⊢
            split at best
            · cases best
              omega
            · cases best
              exact unbeaten

/-! ### The sweep -/

/-- The fold is the one of these that collapses the line: over it, and not outranked there. -/
structure Tops (folds : List Fold) (fold : Fold) (line : Nat) : Prop where
  mem : fold ∈ folds
  over_ : fold.contains line = true
  unbeaten : ∀ other ∈ folds, other.contains line = true → ¬ other.Outranks fold

/-- What of a fold lies in the text. -/
def Fold.clamp (fold : Fold) (lineCount : Nat) : Fold where
  start := fold.start
  end_ := min fold.end_ (lineCount - 1)
  closed := true

/-- A fold that collapses one line of the text has more than one there, and collapses them all. -/
def Settled (folds : List Fold) (lineCount : Nat) : Prop :=
  ∀ fold line, line < lineCount → Tops folds fold line →
    fold.start < min fold.end_ (lineCount - 1) ∧
      ∀ other, other < lineCount → fold.contains other = true → Tops folds fold other

section Sweep

variable {folds : List Fold} {lineCount : Nat}

theorem exists_tops (sorted : folds.Pairwise Fold.Before) {fold : Fold} (mem : fold ∈ folds)
    {line : Nat} (over_ : fold.contains line = true) : ∃ top, Tops folds top line := by
  have sorted' := sorted.filter (·.contains line)
  cases best : widest (folds.filter (·.contains line)) with
  | none =>
      have nothing := widest_eq_none.1 best
      have there : fold ∈ folds.filter (·.contains line) := List.mem_filter.2 ⟨mem, over_⟩
      rw [nothing] at there
      cases there
  | some top =>
      have there := List.mem_filter.1 (widest_mem best)
      refine ⟨top, there.1, there.2, fun other mem' over_' => ?_⟩
      exact widest_unbeaten sorted' best (List.mem_filter.2 ⟨mem', over_'⟩)

/-- Two closed folds that collapse one line are one. -/
theorem Tops.unique (closed : ∀ fold ∈ folds, fold.closed = true) {a b : Fold} {line : Nat}
    (first : Tops folds a line) (second : Tops folds b line) : a = b := by
  have one := first.unbeaten b second.mem second.over_
  have two := second.unbeaten a first.mem first.over_
  have closed_a := closed a first.mem
  have closed_b := closed b second.mem
  have over_a := Fold.contains_iff.1 first.over_
  have over_b := Fold.contains_iff.1 second.over_
  obtain ⟨start, e, c⟩ := a
  obtain ⟨start', e', c'⟩ := b
  simp only [Fold.Outranks, Fold.lineCount] at one two
  simp only at closed_a closed_b over_a over_b
  simp only [Fold.mk.injEq]
  exact ⟨by omega, by omega, closed_a.trans closed_b.symm⟩

/-- What the sweep has done behind some of the folds: its regions are the folds that collapse lines,
cut to the text, and each of those it has passed is a region. -/
structure Swept (folds passed : List Fold) (lineCount : Nat)
    (swept : List Fold × Option Nat) : Prop where
  regions : ∀ region ∈ swept.1, ∃ fold ∈ passed, region = fold.clamp lineCount ∧
    ∃ line < lineCount, Tops folds fold line
  complete : ∀ fold ∈ passed, ∀ line < lineCount, Tops folds fold line →
    fold.clamp lineCount ∈ swept.1
  covered : ∀ region ∈ swept.1, ∃ e, swept.2 = some e ∧ region.end_ ≤ e
  last : ∀ e, swept.2 = some e → ∃ region ∈ swept.1, region.end_ = e

theorem sweep_spec (sorted : folds.Pairwise Fold.Before)
    (closed : ∀ fold ∈ folds, fold.closed = true) (settled : Settled folds lineCount)
    (passed rest : List Fold) (split : folds = passed ++ rest) :
    Swept folds passed lineCount
      (passed.foldl (FoldState.sweepStep lineCount) ([], none)) := by
  induction passed using List.reverseRecOn generalizing rest with
  | nil => exact ⟨by simp, by simp, by simp, by simp⟩
  | append_singleton passed fold ih =>
      have before := ih (fold :: rest) (by simpa using split)
      rw [List.foldl_append, List.foldl_cons, List.foldl_nil]
      generalize passed.foldl (FoldState.sweepStep lineCount) ([], none) = swept at before ⊢
      have mem : fold ∈ folds := by simp [split]
      have earlier : ∀ other ∈ passed, other.Before fold := by
        rw [split, List.append_assoc, List.pairwise_append] at sorted
        intro other there
        exact sorted.2.2 other there fold (by simp)
      have later : ∀ other ∈ folds, other ∈ passed ∨ other = fold ∨ fold.Before other := by
        intro other there
        rw [split, List.append_assoc, List.pairwise_append] at sorted
        rw [split, List.append_assoc, List.mem_append, List.singleton_append,
          List.mem_cons] at there
        rcases there with there | there | there
        · exact Or.inl there
        · exact Or.inr (Or.inl there)
        · exact Or.inr (Or.inr ((List.pairwise_cons.1 sorted.2.1).1 other there))
      -- a step that takes nothing in is right when the fold collapses nothing new
      have stay : (∀ line < lineCount, Tops folds fold line → fold.clamp lineCount ∈ swept.1) →
          Swept folds (passed ++ [fold]) lineCount swept := by
        intro taken
        refine ⟨?_, ?_, before.covered, before.last⟩
        · intro region there
          obtain ⟨source, mem', same, tops⟩ := before.regions region there
          exact ⟨source, List.mem_append_left _ mem', same, tops⟩
        · intro source mem' line inside tops
          rcases List.mem_append.1 mem' with old | new
          · exact before.complete source old line inside tops
          · obtain rfl := List.mem_singleton.1 new
            exact taken line inside tops
      rw [FoldState.sweepStep]
      split
      · rename_i outside
        refine stay fun line inside tops => ?_
        have over_ := Fold.contains_iff.1 tops.over_
        omega
      · rename_i inside
        split
        · rename_i nested
          refine stay fun line inside' tops => ?_
          -- the region that covers the fold's start is cut from a fold that collapses it there
          cases covered : swept.2 with
          | none => simp [covered] at nested
          | some e =>
              rw [covered, Option.any_some, decide_eq_true_eq] at nested
              obtain ⟨region, there, ends⟩ := before.last e covered
              obtain ⟨source, mem', rfl, line', inside'', tops'⟩ := before.regions region there
              have order := earlier source mem'
              simp only [Fold.clamp] at ends
              simp only [Fold.Before] at order
              have over_ : source.contains fold.start = true :=
                Fold.contains_iff.2 ⟨by omega, by omega⟩
              have own : fold.contains fold.start = true := by
                have over_' := Fold.contains_iff.1 tops.over_
                exact Fold.contains_iff.2 ⟨le_refl _, by omega⟩
              have first := (settled source line' inside'' tops').2 fold.start (by omega) over_
              have second := (settled fold line inside' tops).2 fold.start (by omega) own
              obtain rfl := first.unique closed second
              exact there
        · rename_i fresh
          split
          · rename_i single
            refine stay fun line inside' tops => ?_
            have more := (settled fold line inside' tops).1
            omega
          · rename_i several
            have own : fold.contains fold.start = true :=
              Fold.contains_iff.2 ⟨le_refl _, by omega⟩
            -- whatever collapses the fold's first line is not behind it, and had it been passed
            -- the line would be covered
            have tops : Tops folds fold fold.start := by
              obtain ⟨top, tops⟩ := exists_tops sorted mem own
              have over_ := Fold.contains_iff.1 tops.over_
              rcases later top tops.mem with old | rfl | behind
              · have there := before.complete top old fold.start (by omega) tops
                obtain ⟨e, covered, ends⟩ := before.covered _ there
                rw [covered, Option.any_some, decide_eq_true_eq] at fresh
                simp only [Fold.clamp] at ends
                omega
              · exact tops
              · have unbeaten := tops.unbeaten fold mem own
                simp only [Fold.Before] at behind
                simp only [Fold.Outranks, Fold.lineCount] at unbeaten
                have same : top = fold := by
                  have closed_top := closed top tops.mem
                  have closed_fold := closed fold mem
                  obtain ⟨start, e, c⟩ := top
                  obtain ⟨start', e', c'⟩ := fold
                  simp only at behind unbeaten over_ closed_top closed_fold
                  simp only [Fold.mk.injEq]
                  exact ⟨by omega, by omega, closed_top.trans closed_fold.symm⟩
                rw [same] at tops
                exact tops
            refine ⟨?_, ?_, ?_, ?_⟩
            · intro region there
              rcases List.mem_append.1 there with old | new
              · obtain ⟨source, mem', same, tops'⟩ := before.regions region old
                exact ⟨source, List.mem_append_left _ mem', same, tops'⟩
              · exact ⟨fold, by simp, List.mem_singleton.1 new, fold.start, by omega, tops⟩
            · intro source mem' line inside' tops'
              rcases List.mem_append.1 mem' with old | new
              · exact List.mem_append_left _ (before.complete source old line inside' tops')
              · obtain rfl := List.mem_singleton.1 new
                exact List.mem_append_right _ (List.mem_singleton.2 rfl)
            · intro region there
              refine ⟨_, rfl, ?_⟩
              rcases List.mem_append.1 there with old | new
              · obtain ⟨e, covered, ends⟩ := before.covered region old
                rw [covered, Option.any_some, decide_eq_true_eq] at fresh
                omega
              · rw [List.mem_singleton.1 new]
            · intro e same
              cases same
              exact ⟨_, List.mem_append_right _ (List.mem_singleton.2 rfl), rfl⟩

end Sweep

/-! ### The two readings -/

theorem sweep_proper (lineCount : Nat) (folds : List Fold) :
    ∀ region ∈ (folds.foldl (FoldState.sweepStep lineCount) ([], none)).1,
      region.start < region.end_ := by
  have start : ∀ region ∈ (([], none) : List Fold × Option Nat).1,
      region.start < region.end_ := by
    intro region there
    cases there
  revert start
  generalize (([], none) : List Fold × Option Nat) = swept
  intro proper
  induction folds generalizing swept with
  | nil => exact proper
  | cons fold folds ih =>
      refine ih _ ?_
      intro region there
      rw [FoldState.sweepStep] at there
      split at there
      · exact proper region there
      · split at there
        · exact proper region there
        · split at there
          · exact proper region there
          · rename_i several
            rcases List.mem_append.1 there with old | new
            · exact proper region old
            · rw [List.mem_singleton.1 new]
              exact Nat.lt_of_not_le several

namespace FoldState

/-- The closed folds, in the set's order. -/
def closedFolds (state : FoldState) : List Fold := state.folds.filter (·.closed)

/-- The two readings say the same of every line of the text. -/
structure Agrees (state : FoldState) (lineCount : Nat) : Prop where
  covers : ∀ line < lineCount, (state.collapsingAt line).isSome ↔
    ∃ region ∈ state.collapsedRegions lineCount, region.contains line = true
  same : ∀ line < lineCount, ∀ fold region, state.collapsingAt line = some fold →
    region ∈ state.collapsedRegions lineCount → region.contains line = true →
      region.start = fold.start ∧ region.end_ = min fold.end_ (lineCount - 1)

/-- A frame draws the row: it is in no region, or the first row of it. -/
def Drawn (state : FoldState) (lineCount row : Nat) : Prop :=
  ∀ region ∈ state.collapsedRegions lineCount, region.contains row = true → row = region.start

variable {state : FoldState} {lineCount : Nat}

theorem closedFolds_closed (state : FoldState) :
    ∀ fold ∈ state.closedFolds, fold.closed = true := by
  intro fold mem
  exact (List.mem_filter.1 mem).2

variable {line : Nat}

theorem collapsingAt_eq_some (sorted : state.Sorted) {fold : Fold} :
    state.collapsingAt line = some fold ↔ Tops state.closedFolds fold line := by
  have sorted' : state.closedFolds.Pairwise Fold.Before := List.Pairwise.filter _ sorted
  have same : state.collapsingAt line =
      widest (state.closedFolds.filter (·.contains line)) := by
    rw [collapsingAt, closedFolds, List.filter_filter]
    congr 2
    funext fold
    exact Bool.and_comm _ _
  have tops : ∀ fold, state.collapsingAt line = some fold →
      Tops state.closedFolds fold line := by
    intro fold best
    rw [same] at best
    have there := List.mem_filter.1 (widest_mem best)
    refine ⟨there.1, there.2, fun other mem over_ => ?_⟩
    exact widest_unbeaten (sorted'.filter _) best (List.mem_filter.2 ⟨mem, over_⟩)
  constructor
  · exact tops fold
  · intro top
    cases best : state.collapsingAt line with
    | none =>
        rw [same, widest_eq_none] at best
        have there : fold ∈ state.closedFolds.filter (·.contains line) :=
          List.mem_filter.2 ⟨top.mem, top.over_⟩
        rw [best] at there
        cases there
    | some other => rw [(tops other best).unique (closedFolds_closed state) top]

/-- Where the readings agree, a fold that collapses a line collapses every line of it. -/
theorem Agrees.settled (sorted : state.Sorted) (agrees : state.Agrees lineCount) :
    Settled state.closedFolds lineCount := by
  intro fold line inside tops
  have reads := (collapsingAt_eq_some sorted).2 tops
  obtain ⟨region, there, over_⟩ := (agrees.covers line inside).1 (by rw [reads]; rfl)
  obtain ⟨starts, ends⟩ := agrees.same line inside fold region reads there over_
  have proper := sweep_proper lineCount _ region there
  refine ⟨by omega, fun other inside' over_other => ?_⟩
  have within := Fold.contains_iff.1 over_other
  have region_other : region.contains other = true :=
    Fold.contains_iff.2 ⟨by omega, by omega⟩
  have some_fold := (agrees.covers other inside').2 ⟨region, there, region_other⟩
  obtain ⟨best, reads'⟩ := Option.isSome_iff_exists.1 some_fold
  obtain ⟨starts', -⟩ := agrees.same other inside' best region reads' there region_other
  have top := (collapsingAt_eq_some sorted).1 reads'
  have same : best = fold := by
    -- both start with the region, so the wider one is over both lines
    have closed_best := closedFolds_closed state best top.mem
    have closed_fold := closedFolds_closed state fold tops.mem
    have over_line := Fold.contains_iff.1 tops.over_
    have over_best := Fold.contains_iff.1 top.over_
    have not_less := top.unbeaten fold tops.mem over_other
    have not_more : best.end_ ≤ fold.end_ := by
      by_contra longer
      refine tops.unbeaten best top.mem (Fold.contains_iff.2 ⟨by omega, by omega⟩) (Or.inl ?_)
      simp only [Fold.lineCount]
      omega
    simp only [Fold.Outranks, Fold.lineCount] at not_less
    obtain ⟨start, e, c⟩ := best
    obtain ⟨start', e', c'⟩ := fold
    simp only at *
    simp only [Fold.mk.injEq]
    exact ⟨by omega, by omega, closed_best.trans closed_fold.symm⟩
  rw [← same]
  exact top

/-- Where every fold that collapses a line collapses all its lines, the readings agree. -/
theorem Agrees.of_settled (sorted : state.Sorted)
    (settled : Settled state.closedFolds lineCount) : state.Agrees lineCount := by
  have swept : Swept state.closedFolds state.closedFolds lineCount
      (state.closedFolds.foldl (sweepStep lineCount) ([], none)) :=
    sweep_spec (List.Pairwise.filter _ sorted) (closedFolds_closed state) settled
      state.closedFolds [] (List.append_nil _).symm
  have source : ∀ line < lineCount, ∀ region ∈ state.collapsedRegions lineCount,
      region.contains line = true →
        ∃ fold, region = fold.clamp lineCount ∧ state.collapsingAt line = some fold := by
    intro line inside region there over_
    obtain ⟨fold, -, rfl, line', inside', tops⟩ := swept.regions region there
    refine ⟨fold, rfl, (collapsingAt_eq_some sorted).2 ?_⟩
    have within := Fold.contains_iff.1 over_
    simp only [Fold.clamp] at within
    exact (settled fold line' inside' tops).2 line inside
      (Fold.contains_iff.2 ⟨within.1, by omega⟩)
  refine ⟨fun line inside => ⟨fun reads => ?_, ?_⟩, ?_⟩
  · obtain ⟨fold, reads⟩ := Option.isSome_iff_exists.1 reads
    have tops := (collapsingAt_eq_some sorted).1 reads
    have within := Fold.contains_iff.1 tops.over_
    refine ⟨fold.clamp lineCount, swept.complete fold tops.mem line inside tops, ?_⟩
    exact Fold.contains_iff.2 ⟨within.1, Nat.le_min.2 ⟨within.2, by omega⟩⟩
  · rintro ⟨region, there, over_⟩
    obtain ⟨fold, -, reads⟩ := source line inside region there over_
    rw [reads]
    rfl
  · intro line inside fold region reads there over_
    obtain ⟨fold', rfl, reads'⟩ := source line inside region there over_
    rw [reads] at reads'
    cases reads'
    exact ⟨rfl, rfl⟩

/-! ### Motions -/

theorem Agrees.start_drawn (sorted : state.Sorted) (agrees : state.Agrees lineCount)
    (inside : line < lineCount) : state.foldLineStart true line < lineCount ∧
      state.Drawn lineCount (state.foldLineStart true line) := by
  rw [foldLineStart, collapsingFoldAt, if_pos rfl]
  cases reads : state.collapsingAt line with
  | none =>
      refine ⟨inside, fun region there over_ => ?_⟩
      have some_fold := (agrees.covers line inside).2 ⟨region, there, over_⟩
      rw [reads] at some_fold
      cases some_fold
  | some fold =>
      have tops := (collapsingAt_eq_some sorted).1 reads
      have within := Fold.contains_iff.1 tops.over_
      have own : fold.contains fold.start = true :=
        Fold.contains_iff.2 ⟨le_refl _, by omega⟩
      have first := (agrees.settled sorted fold line inside tops).2 fold.start (by omega) own
      refine ⟨by dsimp only; omega, fun region there over_ => ?_⟩
      exact (agrees.same fold.start (by omega) fold region
        ((collapsingAt_eq_some sorted).2 first) there over_).1.symm

theorem Agrees.below_drawn (sorted : state.Sorted) (agrees : state.Agrees lineCount) (count : Nat)
    (inside : line < lineCount) (drawn : state.Drawn lineCount line) :
    state.Drawn lineCount (state.stepsBelow true (lineCount - 1) line count) := by
  induction count generalizing line with
  | zero => exact drawn
  | succ count ih =>
      rw [stepsBelow]
      split
      · exact drawn
      · rename_i more
        obtain ⟨inside', drawn'⟩ := agrees.start_drawn sorted
          (show state.foldLineEnd true line + 1 < lineCount by omega)
        exact ih inside' drawn'

theorem Agrees.above_drawn (sorted : state.Sorted) (agrees : state.Agrees lineCount) (count : Nat)
    (inside : line < lineCount) (drawn : state.Drawn lineCount line) :
    state.Drawn lineCount (state.stepsAbove true line count) := by
  induction count generalizing line with
  | zero => exact drawn
  | succ count ih =>
      rw [stepsAbove]
      split
      · exact drawn
      · obtain ⟨inside', drawn'⟩ := agrees.start_drawn sorted
          (show line - 1 < lineCount by omega)
        exact ih inside' drawn'

/-- For every fold set that operations leave and every text, the two readings agree exactly when
each closed fold that is the widest over a line of the text has more than one line there and is the
widest over all of them; and then every row a motion moves to by the folds is drawn. -/
theorem fold_readings_agree (events : List FoldEvent) (lineCount : Nat) :
    let state := events.foldl FoldState.step .empty
    (state.Agrees lineCount ↔ Settled state.closedFolds lineCount) ∧
    (Settled state.closedFolds lineCount → ∀ line < lineCount,
      state.Drawn lineCount (state.foldLineStart true line) ∧
      (∀ count, state.Drawn lineCount
        (state.lineBelowFolds true (lineCount - 1) line count)) ∧
      ∀ count, state.Drawn lineCount (state.lineAboveFolds true line count)) := by
  intro state
  have sorted : state.Sorted := sorted_run events
  refine ⟨⟨Agrees.settled sorted, Agrees.of_settled sorted⟩, fun settled line inside => ?_⟩
  have agrees := Agrees.of_settled sorted settled
  obtain ⟨inside', drawn⟩ := agrees.start_drawn sorted inside
  refine ⟨drawn, fun count => ?_, fun count => ?_⟩
  · exact agrees.below_drawn sorted count inside' drawn
  · exact agrees.above_drawn sorted count inside' drawn

/-- Folds that cross: the line the second one collapses is in no region, or in the region of the
first, and the row its header would be is not drawn.  So too a fold that starts on the last line and
goes past it. -/
theorem crossing_folds_disagree :
    let crossed := [FoldEvent.create 0 5, .create 3 10].foldl FoldState.step .empty
    let past := [FoldEvent.restore [(9, 30, true)]].foldl FoldState.step .empty
    (crossed.collapsedRegions 20 = [⟨0, 5, true⟩] ∧
      crossed.collapsingAt 8 = some ⟨3, 10, true⟩ ∧ crossed.collapsingAt 4 = some ⟨3, 10, true⟩ ∧
      ¬ crossed.Agrees 20 ∧ ¬ crossed.Drawn 20 (crossed.foldLineStart true 8)) ∧
    past.collapsedRegions 10 = [] ∧ past.collapsingAt 9 = some ⟨9, 30, true⟩ ∧
      ¬ past.Agrees 10 := by
  have regions : ([FoldEvent.create 0 5, .create 3 10].foldl FoldState.step
      .empty).collapsedRegions 20 = [⟨0, 5, true⟩] := by decide
  have regions' : ([FoldEvent.restore [(9, 30, true)]].foldl FoldState.step
      .empty).collapsedRegions 10 = [] := by decide
  refine ⟨⟨regions, by decide, by decide, ?_, ?_⟩, regions', by decide, ?_⟩
  · intro agrees
    obtain ⟨region, there, over_⟩ := (agrees.covers 8 (by decide)).1 (by decide)
    rw [regions, List.mem_singleton] at there
    rw [there] at over_
    cases over_
  · intro drawn
    have header := drawn ⟨0, 5, true⟩ (by rw [regions]; exact List.mem_singleton.2 rfl)
      (by decide)
    exact absurd header (by decide)
  · intro agrees
    obtain ⟨region, there, -⟩ := (agrees.covers 9 (by decide)).1 (by decide)
    rw [regions'] at there
    cases there

end FoldState

end Bemtvi.Core
