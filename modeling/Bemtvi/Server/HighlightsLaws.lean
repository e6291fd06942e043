/-
Module: Bemtvi.Server.HighlightsLaws
Purpose: Merging paints each byte as the interval that wins there, the last of the greatest; and the
  frame's index finds the marks of a row that a scan of the whole buffer does, each placed among the
  others alike, so that the row is painted alike.
Trusted boundary: none
Main exports: Wins, merge_paints, merge_congr, rank, ranked_eq, overlapping_eq,
  highlights_exact
-/
import Bemtvi.Core.ApiEdits
import Bemtvi.Server.Highlights

namespace Bemtvi.Server.Highlights

open Utf8 Bemtvi.Core Bemtvi.Core.Extmarks
open Sorted (partitionPoint)
open Picks (maxByKey maxByKey_mem maxByKey_last maxByKey_isSome maxByKey_map maxByKey_congr)
open Sweep (Segment Tidy Painted sweep windows)

/-! ### Merging -/

def HlInterval.Covers (iv : HlInterval) (byte : Nat) : Prop := iv.start ≤ byte ∧ byte < iv.stop

instance (byte : Nat) : DecidablePred fun iv : HlInterval => iv.Covers byte :=
  fun _ => inferInstanceAs (Decidable (_ ∧ _))

/-- An interval wins a byte: of those that cover it none is greater, and none behind it as great. -/
structure Wins (intervals : List HlInterval) (iv : HlInterval) (byte : Nat) : Prop where
  covers : iv.Covers byte
  last : ∃ front back, intervals = front ++ iv :: back ∧
    (∀ other ∈ front, other.Covers byte → other.key ≤ iv.key) ∧
    ∀ other ∈ back, other.Covers byte → other.key < iv.key

variable {intervals : List HlInterval} {iv : HlInterval} {window : Nat × Nat}
  {found : List (Nat × Extmark Highlight)} {mark : Nat × Extmark Highlight} {hi base : Nat}
  {segs : List RowSeg} {buf : MarkedBuffer} {place place' : Nat × Extmark Highlight → Nat}

theorem mem_points (listed : iv ∈ intervals) :
    iv.start ∈ points intervals ∧ iv.stop ∈ points intervals := by
  unfold points
  rw [List.mem_dedup, List.mem_dedup, List.mem_insertionSort, List.mem_insertionSort]
  exact ⟨List.mem_flatMap.2 ⟨iv, listed, List.mem_cons_self⟩,
    List.mem_flatMap.2 ⟨iv, listed, List.mem_cons_of_mem _ List.mem_cons_self⟩⟩

theorem points_ascending (intervals : List HlInterval) : (points intervals).Pairwise (· < ·) := by
  have sorted := List.pairwise_insertionSort (· ≤ ·)
    (intervals.flatMap fun iv => [iv.start, iv.stop])
  have distinct := List.nodup_dedup
    ((intervals.flatMap fun iv => [iv.start, iv.stop]).insertionSort (· ≤ ·))
  exact ((sorted.sublist (List.dedup_sublist _)).and distinct).imp fun both =>
    Nat.lt_of_le_of_ne both.1 both.2

/-- An interval covers a window where it covers a place of it. -/
theorem spans_window (listed : window ∈ windows (points intervals)) {place : Nat}
    (low : window.1 ≤ place) (high : place < window.2) (member : iv ∈ intervals) :
    iv.spans window.1 window.2 = decide (iv.Covers place) := by
  have first := Sweep.windows_whole (points_ascending intervals) listed (mem_points member).1
  have last := Sweep.windows_whole (points_ascending intervals) listed (mem_points member).2
  unfold HlInterval.spans HlInterval.Covers
  rw [← Bool.decide_and]
  apply decide_eq_decide.2
  omega

/-- The winner of a window wins each place of it. -/
theorem wins_of_winner (listed : window ∈ windows (points intervals)) {place : Nat}
    (low : window.1 ≤ place) (high : place < window.2)
    (found : winner intervals window.1 window.2 = some iv) : Wins intervals iv place := by
  have tests : (intervals.filter fun iv => iv.spans window.1 window.2) =
      intervals.filter fun iv => decide (iv.Covers place) :=
    List.filter_congr fun _ member => spans_window listed low high member
  unfold winner at found
  rw [tests] at found
  have covers := (List.mem_filter.1 (maxByKey_mem found)).2
  rcases maxByKey_last found with ⟨front, back, whole, before, behind⟩
  rcases List.filter_eq_append_iff.1 whole with ⟨xs, ys, split, front_eq, rest⟩
  rcases List.filter_eq_cons_iff.1 rest with ⟨skipped, back', split', none_here, -, back_eq⟩
  refine ⟨of_decide_eq_true covers, xs ++ skipped, back', ?_, ?_, ?_⟩
  · rw [split, split', List.append_assoc]
  · intro other member reaches
    rcases List.mem_append.1 member with old | passed
    · exact before other (front_eq ▸ List.mem_filter.2 ⟨old, decide_eq_true reaches⟩)
    · exact absurd (decide_eq_true reaches) (none_here other passed)
  · intro other member reaches
    exact behind other (back_eq ▸ List.mem_filter.2 ⟨member, decide_eq_true reaches⟩)

theorem exists_winner (listed : window ∈ windows (points intervals)) {place : Nat}
    (low : window.1 ≤ place) (high : place < window.2) (member : iv ∈ intervals)
    (covers : iv.Covers place) : ∃ iv', winner intervals window.1 window.2 = some iv' := by
  apply Option.isSome_iff_exists.1
  apply maxByKey_isSome
  apply List.ne_nil_of_mem
  rw [List.mem_filter, spans_window listed low high member]
  exact ⟨member, decide_eq_true covers⟩

/-- One interval wins a byte. -/
theorem Wins.unique {byte : Nat} {iv' : HlInterval} (wins : Wins intervals iv byte)
    (wins' : Wins intervals iv' byte) : iv = iv' := by
  rcases wins.last with ⟨front, back, whole, before, behind⟩
  rcases wins'.last with ⟨front', back', whole', before', behind'⟩
  rw [whole] at whole'
  rcases List.append_eq_append_iff.1 whole' with ⟨more, longer, rest⟩ | ⟨more, shorter, rest⟩
  · cases more with
    | nil => exact (List.cons.inj rest).1
    | cons first more =>
        rcases List.cons.inj rest with ⟨rfl, tail⟩
        have below := behind iv' (tail ▸ List.mem_append_right _ List.mem_cons_self) wins'.covers
        have above := before' iv (longer ▸ List.mem_append_right _ List.mem_cons_self) wins.covers
        exact absurd below (not_lt.2 above)
  · cases more with
    | nil => exact (List.cons.inj rest).1.symm
    | cons first more =>
        rcases List.cons.inj rest with ⟨rfl, tail⟩
        have below := behind' iv (tail ▸ List.mem_append_right _ List.mem_cons_self) wins.covers
        have above := before iv' (shorter ▸ List.mem_append_right _ List.mem_cons_self) wins'.covers
        exact absurd below (not_lt.2 above)

theorem mergeIntervals_eq (intervals : List HlInterval) : mergeIntervals intervals =
    sweep (fun p q => (winner intervals p q).map HlInterval.paint) (windows (points intervals)) [] := by
  unfold mergeIntervals
  split
  · next none_there =>
      rw [List.isEmpty_iff.1 none_there]
      rfl
  · rfl

/-- **Merging paints the winner.** -/
theorem merge_paints (intervals : List HlInterval) : Tidy (mergeIntervals intervals) ∧
    ∀ byte color, Painted (mergeIntervals intervals) byte color ↔
      ∃ iv, Wins intervals iv byte ∧ iv.paint = color := by
  have ascending := points_ascending intervals
  have wide : ∀ window ∈ windows (points intervals), window.1 < window.2 :=
    fun _ listed => Sweep.window_lt ascending listed
  have apart := Sweep.windows_apart ascending
  rw [mergeIntervals_eq]
  refine ⟨Sweep.sweep_tidy wide apart, fun byte color => ?_⟩
  rw [Sweep.sweep_painted wide apart]
  constructor
  · rintro ⟨window, listed, low, high, chosen⟩
    rcases Option.map_eq_some_iff.1 chosen with ⟨iv, found, same⟩
    exact ⟨iv, wins_of_winner listed low high found, same⟩
  · rintro ⟨iv, wins, same⟩
    rcases wins.last with ⟨front, back, whole, -, -⟩
    have member : iv ∈ intervals := whole ▸ List.mem_append_right front List.mem_cons_self
    rcases Sweep.exists_window ascending (mem_points member).1 (mem_points member).2 wins.covers.1
      wins.covers.2 with ⟨window, listed, low, high⟩
    rcases exists_winner listed low high member wins.covers with ⟨iv', found⟩
    refine ⟨window, listed, low, high, ?_⟩
    rw [found, (wins_of_winner listed low high found).unique wins, Option.map_some, same]

/-- A byte is painted where an interval covers it. -/
theorem exists_painted (intervals : List HlInterval) (byte : Nat) :
    (∃ color, Painted (mergeIntervals intervals) byte color) ↔ ∃ iv ∈ intervals, iv.Covers byte := by
  constructor
  · rintro ⟨color, painted⟩
    rcases ((merge_paints intervals).2 byte color).1 painted with ⟨iv, wins, -⟩
    rcases wins.last with ⟨front, back, whole, -, -⟩
    exact ⟨iv, whole ▸ List.mem_append_right front List.mem_cons_self, wins.covers⟩
  · rintro ⟨iv, member, covers⟩
    rcases Sweep.exists_window (points_ascending intervals) (mem_points member).1 (mem_points member).2
      covers.1 covers.2 with ⟨window, listed, low, high⟩
    rcases exists_winner listed low high member covers with ⟨iv', found⟩
    exact ⟨iv'.paint, ((merge_paints intervals).2 byte iv'.paint).2
      ⟨iv', wins_of_winner listed low high found, rfl⟩⟩

/-- Intervals that differ in their orders only, and compare alike, merge alike. -/
theorem merge_congr {zs : List (HlInterval × HlInterval)}
    (alike : ∀ z ∈ zs, z.2 = { z.1 with order := z.2.order })
    (compare : ∀ z ∈ zs, ∀ z' ∈ zs, z.1.key < z'.1.key ↔ z.2.key < z'.2.key) :
    mergeIntervals (zs.map Prod.fst) = mergeIntervals (zs.map Prod.snd) := by
  have edges : points (zs.map Prod.fst) = points (zs.map Prod.snd) := by
    unfold points
    rw [List.flatMap_map, List.flatMap_map]
    congr 2
    apply List.flatMap_congr
    intro z listed
    rw [alike z listed]
  have chosen : ∀ p q, (winner (zs.map Prod.fst) p q).map HlInterval.paint =
      (winner (zs.map Prod.snd) p q).map HlInterval.paint := by
    intro p q
    have tests : zs.filter (fun z => z.2.spans p q) = zs.filter fun z => z.1.spans p q := by
      apply List.filter_congr
      intro z listed
      rw [alike z listed]
      rfl
    have within : ∀ z ∈ zs.filter (fun z => z.1.spans p q), z ∈ zs :=
      fun z member => (List.mem_filter.1 member).1
    have compares : ∀ z ∈ zs.filter (fun z => z.1.spans p q),
        ∀ z' ∈ zs.filter (fun z => z.1.spans p q),
        (HlInterval.key ∘ Prod.fst) z < (HlInterval.key ∘ Prod.fst) z' ↔
          (HlInterval.key ∘ Prod.snd) z < (HlInterval.key ∘ Prod.snd) z' :=
      fun z member z' member' => compare z (within z member) z' (within z' member')
    unfold winner
    rw [List.filter_map, List.filter_map]
    show ((maxByKey _ _ ((zs.filter fun z => z.1.spans p q).map Prod.fst)).map _) =
      (maxByKey _ _ ((zs.filter fun z => z.2.spans p q).map Prod.snd)).map _
    rw [tests, maxByKey_map, maxByKey_map, maxByKey_congr compares]
    cases found : maxByKey (fun a b => decide (a < b)) (HlInterval.key ∘ Prod.snd)
        (zs.filter fun z => z.1.spans p q) with
    | none => rfl
    | some z =>
        simp only [Option.map_some]
        rw [alike z (within z (maxByKey_mem found))]
        rfl
  rw [mergeIntervals_eq, mergeIntervals_eq, edges]
  congr 1
  funext p q
  exact chosen p q

/-! ### Ranks -/

/-- Strictly below in the layering order. -/
def layerLt (a b : Nat × Extmark Highlight) : Prop :=
  a.1 < b.1 ∨ (a.1 = b.1 ∧ a.2.id < b.2.id)

instance : DecidableRel layerLt := fun _ _ => inferInstanceAs (Decidable (_ ∨ _))

/-- How many of the marks are below one. -/
def rank (found : List (Nat × Extmark Highlight)) (mark : Nat × Extmark Highlight) : Nat :=
  found.countP fun other => layerLt other mark

def OtherName (a b : Nat × Extmark Highlight) : Prop := ¬ (a.1 = b.1 ∧ a.2.id = b.2.id)

instance : Std.Symm OtherName where
  symm _ _ other both := other ⟨both.1.symm, both.2.symm⟩

/-- No two of the marks have one name. -/
def Apart (found : List (Nat × Extmark Highlight)) : Prop := found.Pairwise OtherName

instance : Std.Total layerLe where
  total a b := by
    unfold layerLe
    omega

instance : IsTrans (Nat × Extmark Highlight) layerLe where
  trans a b c := by
    unfold layerLe
    omega

instance : Std.Total startLe where
  total a b := by
    unfold startLe
    omega

instance : IsTrans IndexedMark startLe where
  trans a b c := by
    unfold startLe
    omega

theorem Apart.perm {found' : List (Nat × Extmark Highlight)} (apart : Apart found)
    (same : found.Perm found') : Apart found' :=
  (same.pairwise_iff fun {_ _} other => Std.Symm.symm _ _ other).1 apart

/-- The marks in the layering order are strictly ascending. -/
theorem Apart.layered (apart : Apart found) : (found.insertionSort layerLe).Pairwise layerLt := by
  have sorted := List.pairwise_insertionSort layerLe found
  have apart' := apart.perm (List.perm_insertionSort layerLe found).symm
  apply (sorted.and apart').imp
  rintro a b ⟨ordered, other⟩
  unfold layerLe at ordered
  unfold OtherName at other
  unfold layerLt
  omega

/-- A place in an ascending list is a rank. -/
theorem rank_of_split {front back : List (Nat × Extmark Highlight)}
    (whole : found = front ++ mark :: back) (ascending : found.Pairwise layerLt) :
    rank found mark = front.length := by
  rw [whole] at ascending
  rcases List.pairwise_append.1 ascending with ⟨-, tail, before⟩
  have behind := (List.pairwise_cons.1 tail).1
  unfold rank
  rw [whole, List.countP_append, List.countP_cons_of_neg]
  · have all := List.countP_eq_length.2 fun other member =>
      decide_eq_true (before other member mark List.mem_cons_self)
    have none := List.countP_eq_zero.2 fun other member => by
      have above := behind other member
      show ¬ decide (layerLt other mark) = true
      rw [decide_eq_true_eq]
      unfold layerLt at above ⊢
      omega
    rw [all, none, Nat.add_zero]
  · rw [decide_eq_true_eq]
    unfold layerLt
    omega

theorem rank_lt {a b : Nat × Extmark Highlight} (here : a ∈ found) (ordered : layerLt a b) :
    rank found a < rank found b := by
  have below : ∀ other, decide (layerLt other a) = true → decide (layerLt other b) = true := by
    intro other
    rw [decide_eq_true_eq, decide_eq_true_eq]
    unfold layerLt at ordered ⊢
    omega
  have itself : ¬ decide (layerLt a a) = true := by
    rw [decide_eq_true_eq]
    unfold layerLt
    omega
  rcases List.append_of_mem here with ⟨front, back, whole⟩
  have before := List.countP_mono_left (l := front) fun other _ => below other
  have behind := List.countP_mono_left (l := back) fun other _ => below other
  unfold rank
  rw [whole, List.countP_append, List.countP_append, 
    List.countP_cons_of_neg (p := fun other => decide (layerLt other a)) itself,
    List.countP_cons_of_pos (p := fun other => decide (layerLt other b)) (decide_eq_true ordered)]
  omega

/-- Ranks compare as the marks do. -/
theorem rank_lt_iff {a b : Nat × Extmark Highlight} (here : a ∈ found) (there : b ∈ found) :
    rank found a < rank found b ↔ layerLt a b := by
  constructor
  · intro less
    by_contra above
    have other : layerLt b a ∨ (a.1 = b.1 ∧ a.2.id = b.2.id) := by
      unfold layerLt at above ⊢
      omega
    rcases other with beneath | ⟨ns, id⟩
    · exact absurd less (Nat.not_lt.2 (Nat.le_of_lt (rank_lt there beneath)))
    · have same : rank found a = rank found b := by
        apply List.countP_congr
        intro other _
        rw [decide_eq_true_eq, decide_eq_true_eq, layerLt, layerLt, ns, id]
      exact absurd less (same ▸ Nat.lt_irrefl _)
  · exact rank_lt here

/-- An index entry of a mark. -/
def indexed (found : List (Nat × Extmark Highlight)) (mark : Nat × Extmark Highlight) :
    IndexedMark where
  order := rank found mark
  start := mark.2.start
  stop := mark.2.stop.getD mark.2.start
  mark := mark.2

/-- The enumeration of an ascending list gives each mark its rank. -/
theorem zipIdx_ranks (ascending : found.Pairwise layerLt) :
    found.zipIdx = found.map fun mark => (mark, rank found mark) := by
  apply List.ext_getElem
  · rw [List.length_zipIdx, List.length_map]
  · intro i inside inside'
    rw [List.length_map] at inside'
    rw [List.getElem_zipIdx, List.getElem_map, Nat.zero_add]
    have split : found = found.take i ++ found[i] :: found.drop (i + 1) := by
      rw [List.getElem_cons_drop, List.take_append_drop]
    rw [rank_of_split split ascending, List.length_take_of_le (Nat.le_of_lt inside')]

theorem Apart.distinct (apart : Apart found) : Sorted.Distinct ExtmarkStore.markLe found := by
  intro a here b there left right
  by_contra other
  have named : a.1 = b.1 ∧ a.2.id = b.2.id := by
    unfold ExtmarkStore.markLe at left right
    omega
  exact apart.forall here there other named

instance : Std.Total (ExtmarkStore.markLe (P := Highlight)) where
  total a b := by
    unfold ExtmarkStore.markLe
    omega

instance : IsTrans (Nat × Extmark Highlight) ExtmarkStore.markLe where
  trans a b c := by
    unfold ExtmarkStore.markLe
    omega

/-- **Ranked marks**: by start, each with its rank. -/
theorem ranked_eq (apart : Apart found) :
    ranked found = (found.insertionSort ExtmarkStore.markLe).map (indexed found) := by
  have same := List.perm_insertionSort layerLe found
  have rank_eq : ∀ mark, rank (found.insertionSort layerLe) mark = rank found mark :=
    fun mark => same.countP_eq _
  unfold ranked
  rw [zipIdx_ranks apart.layered, List.map_map]
  have entries : (found.insertionSort layerLe).map ((fun entry : (Nat × Extmark Highlight) × Nat =>
      ({ order := entry.2
         start := entry.1.2.start
         stop := entry.1.2.stop.getD entry.1.2.start
         mark := entry.1.2 } : IndexedMark)) ∘
        fun mark => (mark, rank (found.insertionSort layerLe) mark)) =
      (found.insertionSort layerLe).map (indexed found) := by
    apply List.map_congr_left
    intro mark _
    rw [Function.comp_apply, rank_eq]
    rfl
  rw [entries, ← List.map_insertionSort (r := ExtmarkStore.markLe) (s := startLe)]
  · rw [Sorted.insertionSort_perm apart.distinct same]
  · intro a here b there
    have ranks := rank_lt_iff (same.subset there) (same.subset here)
    show _ ↔ a.2.start < b.2.start ∨ (a.2.start = b.2.start ∧ rank found a ≤ rank found b)
    rw [← Nat.not_lt, ranks]
    unfold ExtmarkStore.markLe layerLt
    omega

/-! ### The walk back -/

theorem length_runningMax (running : Nat) (stops : List Nat) :
    (runningMax running stops).length = stops.length := by
  induction stops generalizing running with
  | nil => rfl
  | cons stop stops ih => rw [runningMax, List.length_cons, List.length_cons, ih]

/-- The running maximum at a place bounds everything up to it. -/
theorem le_runningMax {running : Nat} {stops : List Nat} {i reach : Nat}
    (there : (runningMax running stops)[i]? = some reach) :
    running ≤ reach ∧ ∀ stop ∈ stops.take (i + 1), stop ≤ reach := by
  induction stops generalizing running i with
  | nil => cases there
  | cons stop stops ih =>
      rw [runningMax] at there
      cases i with
      | zero =>
          obtain rfl := Option.some.inj there
          refine ⟨Nat.le_max_left _ _, fun other member => ?_⟩
          rw [List.take_succ_cons, List.take_zero] at member
          exact List.mem_singleton.1 member ▸ Nat.le_max_right _ _
      | succ i =>
          rw [List.getElem?_cons_succ] at there
          rcases ih there with ⟨first, rest⟩
          refine ⟨Nat.le_trans (Nat.le_max_left _ _) first, fun other member => ?_⟩
          rw [List.take_succ_cons] at member
          rcases List.mem_cons.1 member with same | later
          · exact same ▸ Nat.le_trans (Nat.le_max_right _ _) first
          · exact rest other later

/-- What the index gives of a mark. -/
def IndexedMark.entry (found : IndexedMark) : Nat × Extmark Highlight := (found.order, found.mark)

namespace HlMarkIndex

/-- The walk collects what ends behind a byte, latest first; where it stops nothing is left. -/
theorem walkBack_eq (marks : List IndexedMark) (lo : Nat) {i : Nat} (inside : i ≤ marks.length)
    (out : List (Nat × Extmark Highlight)) : (ofMarks marks).walkBack lo i out =
      some (out ++ (((marks.take i).filter fun found => found.stop > lo).map
        IndexedMark.entry).reverse) := by
  induction i generalizing out with
  | zero =>
      rw [walkBack, List.take_zero, List.filter_nil, List.map_nil, List.reverse_nil, List.append_nil]
  | succ i ih =>
      have here : i < marks.length := inside
      have some_reach : i < (runningMax 0 (marks.map IndexedMark.stop)).length := by
        rw [length_runningMax, List.length_map]
        exact here
      have reach := List.getElem?_eq_getElem some_reach
      have found := List.getElem?_eq_getElem here
      unfold walkBack
      show (do
        let reach ← (runningMax 0 (marks.map IndexedMark.stop))[i]?
        if reach ≤ lo then some out
        else
          let found ← marks[i]?
          walkBack (ofMarks marks) lo i
            (if found.stop > lo then out ++ [(found.order, found.mark)] else out)) = _
      rw [reach, found]
      simp only [Option.bind_eq_bind, Option.bind_some]
      split
      · next short =>
          have none_left : (marks.take (i + 1)).filter (fun found => decide (found.stop > lo)) = [] := by
            apply List.filter_eq_nil_iff.2
            intro other member
            have bounded := (le_runningMax reach).2 other.stop (by
              rw [← List.map_take]
              exact List.mem_map_of_mem member)
            rw [decide_eq_true_eq]
            omega
          rw [none_left, List.map_nil, List.reverse_nil, List.append_nil]
      · rw [ih (Nat.le_of_lt here), List.take_succ_eq_append_getElem here, List.filter_append,
          List.map_append, List.reverse_append]
        by_cases reaches : marks[i].stop > lo
        · have kept : [marks[i]].filter (fun found => decide (found.stop > lo)) = [marks[i]] :=
            List.filter_cons_of_pos (decide_eq_true reaches)
          rw [if_pos reaches, kept, List.append_assoc]
          rfl
        · have dropped : [marks[i]].filter (fun found => decide (found.stop > lo)) = [] :=
            List.filter_cons_of_neg fun test => reaches (of_decide_eq_true test)
          rw [if_neg reaches, dropped]
          rfl

/-- **The index finds** the marks that start before a row ends and end behind its start. -/
theorem overlapping_eq {marks : List IndexedMark} (sorted : marks.Pairwise startLe) (lo hi : Nat) :
    (ofMarks marks).overlapping lo hi =
      some ((marks.filter fun found => decide (found.start < hi) && decide (found.stop > lo)).map
        IndexedMark.entry) := by
  have lower : Sorted.Lower startLe fun found => decide (found.start < hi) := by
    intro a b ordered below
    rw [decide_eq_true_eq] at below ⊢
    unfold startLe at ordered
    omega
  have parted := Sorted.parted_of_sorted sorted lower
  have within : partitionPoint marks (fun found => decide (found.start < hi)) ≤ marks.length :=
    (List.takeWhile_sublist _).length_le
  unfold overlapping
  rw [show (ofMarks marks).marks = marks from rfl, walkBack_eq marks lo within,
    Sorted.take_partitionPoint, parted.takeWhile_eq, List.filter_filter]
  simp only [List.nil_append, Option.map_some, List.reverse_reverse]
  congr 2
  apply List.filter_congr
  intro found _
  exact Bool.and_comm _ _

end HlMarkIndex

/-! ### The marks of a row -/

/-- A mark paints: it has a group and a range. -/
def bearing (m : Extmark Highlight) : Bool := m.payload.hlGroup.isSome && m.stop.isSome

/-- The range of a mark overlaps a row. -/
def overlaps (lo hi : Nat) (m : Extmark Highlight) : Bool :=
  decide (m.start < hi) && decide (m.stop.getD m.start > lo)

/-- What overlaps a row inside the viewport overlaps the viewport. -/
theorem overlaps_within {lo lo' hi' : Nat} (first : lo ≤ lo') (last : hi' ≤ hi)
    (m : Extmark Highlight) : (overlaps lo' hi' m && overlaps lo hi m) = overlaps lo' hi' m := by
  unfold overlaps
  rw [← Bool.decide_and, ← Bool.decide_and, ← Bool.decide_and]
  apply decide_eq_decide.2
  omega

/-- Every mark of the buffer that paints and overlaps a row, by start. -/
def scanned (store : Extmarks.ExtmarkStore Highlight) (lo hi : Nat) : List (Nat × Extmark Highlight) :=
  store.sortedMarks fun m => bearing m && overlaps lo hi m

/-- What the index of all the marks that paint gives for a row, mark by mark. -/
def scan (store : Extmarks.ExtmarkStore Highlight) (lo hi : Nat) : List (Nat × Extmark Highlight) :=
  ((ranked (store.allMarks.filter fun found => bearing found.2)).filter fun found =>
    decide (found.start < hi) && decide (found.stop > lo)).map IndexedMark.entry

theorem ranked_row (apart : Apart found) (lo hi : Nat) :
    ((ranked found).filter fun found => decide (found.start < hi) && decide (found.stop > lo)).map
      IndexedMark.entry =
      ((found.filter fun mark => overlaps lo hi mark.2).insertionSort ExtmarkStore.markLe).map
        fun mark => (rank found mark, mark.2) := by
  rw [ranked_eq apart, List.filter_map, List.map_map]
  rw [← Sorted.filter_insertionSort apart.distinct]
  rfl

/-- A slot's marks, and a store's, have names of their own. -/
theorem apart_allMarks {store : Extmarks.ExtmarkStore Highlight} (sound : store.Sound) :
    Apart store.allMarks := by
  have distinct : store.allMarks.Nodup := by
    apply List.nodup_flatMap.2
    constructor
    · rintro ⟨ns, slot⟩ member
      have own := (sound.slots ns slot (Assoc.mem_entries.1 member)).own
      apply List.Nodup.map fun a b same => (Prod.mk.inj same).2
      apply List.Nodup.of_map Extmark.id
      have ids : slot.marks.values.map Extmark.id = slot.marks.entries.map Prod.fst := by
        rw [Assoc.values, List.map_map]
        apply List.map_congr_left
        rintro ⟨id, m⟩ member
        exact own id m (Assoc.mem_entries.1 member)
      rw [ids]
      exact slot.marks.distinct
    · apply (List.pairwise_map.1 store.byNs.distinct).imp
      rintro ⟨ns, slot⟩ ⟨ns', slot'⟩ other
      apply List.disjoint_left.2
      intro mark left right
      rcases List.mem_map.1 left with ⟨m, -, rfl⟩
      rcases List.mem_map.1 right with ⟨m', -, same⟩
      exact other (Prod.mk.inj same).1.symm
  apply distinct.imp_of_mem
  rintro ⟨ns, m⟩ ⟨ns', m'⟩ here there other ⟨same_ns, same_id⟩
  have named := sound.mem_allMarks.1 here
  have named' := sound.mem_allMarks.1 there
  simp only at same_ns same_id
  rw [same_ns, same_id, named'] at named
  apply other
  rw [same_ns, Option.some.inj named]

/-- The marks the index is built of, of those that paint: what reaches the viewport. -/
def visible (store : Extmarks.ExtmarkStore Highlight) (lo hi : Nat) : List (Nat × Extmark Highlight) :=
  (store.sortedMarks fun m => decide (m.start < hi ∧ lo ≤ m.stop.getD m.start)).filter fun found =>
    found.2.payload.hlGroup.isSome && found.2.stop.any fun stop => decide (stop > lo)

theorem visible_perm (store : Extmarks.ExtmarkStore Highlight) (lo hi : Nat) :
    (visible store lo hi).Perm (store.allMarks.filter fun found =>
      bearing found.2 && overlaps lo hi found.2) := by
  unfold visible ExtmarkStore.sortedMarks
  apply ((List.perm_insertionSort _ _).filter _).trans
  rw [List.filter_filter]
  apply List.Perm.of_eq
  apply List.filter_congr
  rintro ⟨ns, ⟨id, start, stop, ⟨group, priority⟩, right, endRight, serial⟩⟩ _
  unfold bearing overlaps
  cases group with
  | none => rfl
  | some group =>
      cases stop with
      | none => rfl
      | some stop =>
          simp only [Option.isSome_some, Option.any_some, Option.getD_some, Bool.true_and,
            ← Bool.decide_and]
          apply decide_eq_decide.2
          omega

/-- A mark of a row inside the viewport is among those the index is built of, and among all that paint. -/
theorem mem_scanned {store : Extmarks.ExtmarkStore Highlight} {lo lo' hi' : Nat}
    (first : lo ≤ lo') (last : hi' ≤ hi) (member : mark ∈ scanned store lo' hi') :
    mark ∈ visible store lo hi ∧ mark ∈ store.allMarks.filter fun found => bearing found.2 := by
  rcases List.mem_filter.1 ((List.mem_insertionSort _).1 member) with ⟨listed, test⟩
  rw [Bool.and_eq_true] at test
  have wider := overlaps_within first last mark.2
  rw [test.2, Bool.true_and] at wider
  constructor
  · rw [(visible_perm store lo hi).mem_iff, List.mem_filter, Bool.and_eq_true]
    exact ⟨listed, test.1, wider⟩
  · exact List.mem_filter.2 ⟨listed, test.1⟩

section Row

variable {store : Extmarks.ExtmarkStore Highlight} (sound : store.Sound)
include sound

theorem apart_filter (test : Nat × Extmark Highlight → Bool) : Apart (store.allMarks.filter test) :=
  (apart_allMarks sound).sublist List.filter_sublist

/-- The scan places each mark of the row among all that paint. -/
theorem scan_eq (lo hi : Nat) : scan store lo hi = (scanned store lo hi).map fun mark =>
    (rank (store.allMarks.filter fun found => bearing found.2) mark, mark.2) := by
  unfold scan
  rw [ranked_row (apart_filter sound _), List.filter_filter]
  unfold scanned ExtmarkStore.sortedMarks
  congr 2
  apply List.filter_congr
  intro mark _
  exact Bool.and_comm _ _

/-- The index places each mark of a row inside the viewport among those that reach the viewport. -/
theorem overlapping_visible {lo hi lo' hi' : Nat} (first : lo ≤ lo') (last : hi' ≤ hi) :
    (HlMarkIndex.ofMarks (ranked (visible store lo hi))).overlapping lo' hi' =
      some ((scanned store lo' hi').map fun mark => (rank (visible store lo hi) mark, mark.2)) := by
  have same := visible_perm store lo hi
  have apart : Apart (visible store lo hi) := (apart_filter sound _).perm same.symm
  have sorted : (ranked (visible store lo hi)).Pairwise startLe := List.pairwise_insertionSort _ _
  rw [HlMarkIndex.overlapping_eq sorted, ranked_row apart]
  congr 2
  unfold scanned ExtmarkStore.sortedMarks
  apply Sorted.insertionSort_perm (apart_filter sound _).distinct
  apply (same.filter _).trans
  rw [List.filter_filter]
  apply List.Perm.of_eq
  apply List.filter_congr
  intro mark _
  show (overlaps lo' hi' mark.2 && (bearing mark.2 && overlaps lo hi mark.2)) =
    (bearing mark.2 && overlaps lo' hi' mark.2)
  rw [Bool.and_left_comm, overlaps_within first last]

end Row

/-! ### The viewport -/

/-- Lines seen stay seen. -/
theorem foldl_widen (segs : List RowSeg) (first last : Nat) : ∃ first' last',
    segs.foldl widen (some (first, last)) = some (first', last') ∧ first' ≤ first ∧ last ≤ last' := by
  induction segs generalizing first last with
  | nil => exact ⟨first, last, rfl, Nat.le_refl _, Nat.le_refl _⟩
  | cons seg segs ih =>
      rw [List.foldl_cons]
      cases shows : seg.line with
      | none =>
          rw [show widen (some (first, last)) seg = some (first, last) by unfold widen; rw [shows]]
          exact ih first last
      | some n =>
          rw [show widen (some (first, last)) seg = some (min first (n - 1), max last (n - 1)) by
            unfold widen; rw [shows]]
          rcases ih (min first (n - 1)) (max last (n - 1)) with ⟨first', last', same, low, high⟩
          exact ⟨first', last', same, by omega, by omega⟩

theorem line_seen {seg : RowSeg} (listed : seg ∈ segs) {n : Nat} (shows : seg.line = some n) :
    ∃ first last, segs.foldl widen none = some (first, last) ∧
      first ≤ n - 1 ∧ n - 1 ≤ last := by
  rcases List.append_of_mem listed with ⟨front, back, whole⟩
  rw [whole, List.foldl_append, List.foldl_cons]
  cases front.foldl widen none with
  | none =>
      rw [show widen none seg = some (n - 1, n - 1) by unfold widen; rw [shows]]
      exact foldl_widen back (n - 1) (n - 1)
  | some seen =>
      rw [show widen (some seen) seg = some (min seen.1 (n - 1), max seen.2 (n - 1)) by
        unfold widen; rw [shows]]
      rcases foldl_widen back (min seen.1 (n - 1)) (max seen.2 (n - 1)) with
        ⟨first, last, same, low, high⟩
      exact ⟨first, last, same, by omega, by omega⟩

/-- The text of a row ends by the next line. -/
theorem row_ends (buf : MarkedBuffer) {row len : Nat} (text : len ≤ size (buf.lineCow row)) :
    lineStart buf.text row + len ≤ lineStart buf.text (row + 1) := by
  unfold Buffer.lineCow at text
  split at text
  · next exists_row =>
      have here : row < (lines buf.text).length := by
        unfold Buffer.lineCount at exists_row
        omega
      rcases ApiEdit.stripEol_prefix (lines buf.text)[row] with ⟨eol, whole⟩
      rw [List.getElem?_eq_getElem here, Option.getD_some] at text
      rw [lineStart_eq, lineStart_eq, List.take_succ_eq_append_getElem here, List.flatten_append,
        size_append, List.flatten_singleton, ← whole, size_append]
      omega
  · rw [Nat.le_zero.1 text, Nat.add_zero]
    exact lineStart_mono buf.text (Nat.le_succ row)

/-- **A row is inside the viewport.** -/
theorem row_inside {seg : RowSeg} (listed : seg ∈ segs) {n len : Nat} (shows : seg.line = some n)
    (text : len ≤ size (buf.lineCow (n - 1))) :
    ∃ lo hi, viewportByteRange buf segs = some (lo, hi) ∧ lo ≤ lineStart buf.text (n - 1) ∧
      lineStart buf.text (n - 1) + len ≤ hi := by
  rcases line_seen listed shows with ⟨first, last, seen, low, high⟩
  unfold viewportByteRange
  rw [seen]
  refine ⟨_, _, rfl, lineStart_mono buf.text low, ?_⟩
  have ends := row_ends buf text
  split
  · exact Nat.le_trans ends (lineStart_mono buf.text (Nat.succ_le_succ high))
  · exact Nat.le_trans ends (lineStart_le buf.text _)

/-! ### The intervals of a row -/

theorem key_lt_iff {a b : HlInterval} : a.key < b.key ↔
    a.priority < b.priority ∨ (a.priority = b.priority ∧ a.order < b.order) :=
  Prod.Lex.toLex_lt_toLex

/-- The order passes through the clip, and the priority is the mark's. -/
theorem clip_order (lo hi : Nat) (m : Extmark Highlight) (order : Nat) :
    clip lo hi m order = (clip lo hi m 0).map fun iv => { iv with order := order } := by
  unfold clip
  cases m.payload.hlGroup with
  | none => rfl
  | some group =>
      cases m.stop with
      | none => rfl
      | some stop =>
          simp only [Option.bind_eq_bind, Option.bind_some]
          split
          · rfl
          · rfl

theorem clip_priority {lo : Nat} {m : Extmark Highlight} {order : Nat}
    (clipped : clip lo hi m order = some iv) : iv.priority = m.payload.priority := by
  unfold clip at clipped
  simp only [Option.bind_eq_bind, Option.bind_eq_some_iff] at clipped
  rcases clipped with ⟨group, -, stop, -, clipped⟩
  split at clipped
  · cases clipped
    rfl
  · cases clipped

/-- The intervals of marks, each placed behind others by a rank. -/
def intervalsBy (lo hi base : Nat) (place : Nat × Extmark Highlight → Nat)
    (marks : List (Nat × Extmark Highlight)) : List HlInterval :=
  marks.filterMap fun mark => clip lo hi mark.2 (base + place mark)

/-- The intervals of marks by two ranks, side by side. -/
def intervalPairs (lo hi base : Nat) (place place' : Nat × Extmark Highlight → Nat)
    (marks : List (Nat × Extmark Highlight)) : List (HlInterval × HlInterval) :=
  marks.filterMap fun mark => (clip lo hi mark.2 0).map fun iv =>
    ({ iv with order := base + place mark }, { iv with order := base + place' mark })

/-- A side of the pairs is the intervals by its rank. -/
theorem intervalPairs_side {side : HlInterval × HlInterval → HlInterval} {lo : Nat}
    {own : Nat × Extmark Highlight → Nat}
    (picks : ∀ (iv : HlInterval) (mark : Nat × Extmark Highlight),
      side ({ iv with order := base + place mark }, { iv with order := base + place' mark }) =
        { iv with order := base + own mark }) (marks : List (Nat × Extmark Highlight)) :
    (intervalPairs lo hi base place place' marks).map side = intervalsBy lo hi base own marks := by
  unfold intervalPairs intervalsBy
  rw [List.map_filterMap]
  apply List.filterMap_congr
  intro mark _
  rw [Option.map_map, clip_order lo hi mark.2 (base + own mark)]
  congr 1
  funext iv
  exact picks iv mark

theorem intervalPairs_fst {lo : Nat} (marks : List (Nat × Extmark Highlight)) :
    (intervalPairs lo hi base place place' marks).map Prod.fst = intervalsBy lo hi base place marks :=
  intervalPairs_side (fun _ _ => rfl) marks

theorem intervalPairs_snd {lo : Nat} (marks : List (Nat × Extmark Highlight)) :
    (intervalPairs lo hi base place place' marks).map Prod.snd = intervalsBy lo hi base place' marks :=
  intervalPairs_side (fun _ _ => rfl) marks

/-- Ranks that compare alike paint a row alike, over whatever is beneath. -/
theorem merge_ranks {marks : List (Nat × Extmark Highlight)}
    (alike : ∀ a ∈ marks, ∀ b ∈ marks, place a < place b ↔ place' a < place' b) {lo : Nat}
    {before after : List HlInterval} (beneath : ∀ other ∈ before ++ after, ∀ mark ∈ marks,
      other.priority = mark.2.payload.priority → other.order < base) :
    mergeIntervals (before ++ intervalsBy lo hi base place marks ++ after) =
      mergeIntervals (before ++ intervalsBy lo hi base place' marks ++ after) := by
  let zs := before.map (fun iv => (iv, iv)) ++ intervalPairs lo hi base place place' marks ++
    after.map fun iv => (iv, iv)
  have sides : ∀ {side : HlInterval × HlInterval → HlInterval} {own : Nat × Extmark Highlight → Nat},
      (∀ iv, side (iv, iv) = iv) →
      (intervalPairs lo hi base place place' marks).map side = intervalsBy lo hi base own marks →
      zs.map side = before ++ intervalsBy lo hi base own marks ++ after := by
    intro side own same pairs
    have kept : side ∘ (fun iv => (iv, iv)) = id := funext same
    rw [List.map_append, List.map_append, pairs, List.map_map, List.map_map, kept, List.map_id,
      List.map_id]
  have kinds : ∀ z ∈ zs, (z.1 ∈ before ++ after ∧ z.2 = z.1) ∨ ∃ mark ∈ marks, ∃ iv : HlInterval,
      iv.priority = mark.2.payload.priority ∧
        z = ({ iv with order := base + place mark }, { iv with order := base + place' mark }) := by
    intro z member
    rcases List.mem_append.1 member with front | behind
    · rcases List.mem_append.1 front with first | amid
      · rcases List.mem_map.1 first with ⟨iv, listed, rfl⟩
        exact Or.inl ⟨List.mem_append_left _ listed, rfl⟩
      · rcases List.mem_filterMap.1 amid with ⟨mark, here, made⟩
        rcases Option.map_eq_some_iff.1 made with ⟨iv, clipped, rfl⟩
        exact Or.inr ⟨mark, here, iv, clip_priority clipped, rfl⟩
    · rcases List.mem_map.1 behind with ⟨iv, listed, rfl⟩
      exact Or.inl ⟨List.mem_append_right _ listed, rfl⟩
  rw [← sides (fun _ => rfl) (intervalPairs_fst marks),
    ← sides (fun _ => rfl) (intervalPairs_snd marks)]
  apply merge_congr
  · intro z member
    rcases kinds z member with ⟨-, same⟩ | ⟨mark, -, iv, -, rfl⟩
    · rw [same]
    · rfl
  · intro z member z' member'
    rw [key_lt_iff, key_lt_iff]
    rcases kinds z member with ⟨listed, same⟩ | ⟨mark, here, iv, priority, rfl⟩
    · rcases kinds z' member' with ⟨listed', same'⟩ | ⟨mark', here', iv', priority', rfl⟩
      · rw [same, same']
      · have under := beneath z.1 listed mark' here'
        rw [same]
        simp only
        omega
    · rcases kinds z' member' with ⟨listed', same'⟩ | ⟨mark', here', iv', priority', rfl⟩
      · have under := beneath z'.1 listed' mark here
        rw [same']
        simp only
        omega
      · have compare := alike mark here mark' here'
        simp only [Nat.add_lt_add_iff_left, compare]

/-- What the scan of every mark gives for a row. -/
def scanIntervals (store : Extmarks.ExtmarkStore Highlight) (lineStart lineLen baseOrder : Nat) :
    List HlInterval :=
  (scan store lineStart (lineStart + lineLen)).filterMap fun entry =>
    clip lineStart (lineStart + lineLen) entry.2 (baseOrder + entry.1)

/-- No row maps to a line: the index is empty. -/
theorem build_none (viewport : viewportByteRange buf segs = none) :
    HlMarkIndex.build buf segs = some ⟨[], []⟩ := by
  unfold HlMarkIndex.build
  rw [viewport]

theorem build_visible (sound : buf.extmarks.Sound) {first last : Nat}
    (viewport : viewportByteRange buf segs = some (first, last)) : HlMarkIndex.build buf segs =
      some (.ofMarks (ranked (visible buf.extmarks first last))) := by
  unfold HlMarkIndex.build
  rw [viewport]
  simp only
  rw [(sound.reaching first last).1, Option.map_some]
  rfl

section Painting

variable {store : Extmarks.ExtmarkStore Highlight} (sound : store.Sound) {first last lo len : Nat}
  (low : first ≤ lo) (high : lo + len ≤ last)
include sound

theorem scanIntervals_eq (lo len base : Nat) : scanIntervals store lo len base =
    intervalsBy lo (lo + len) base (rank (store.allMarks.filter fun found => bearing found.2))
      (scanned store lo (lo + len)) := by
  unfold scanIntervals
  rw [scan_eq sound, List.filterMap_map]
  rfl

include low high

theorem extmarkIntervals_visible (base : Nat) :
    extmarkIntervals (.ofMarks (ranked (visible store first last))) lo len base =
      some (intervalsBy lo (lo + len) base (rank (visible store first last))
        (scanned store lo (lo + len))) := by
  unfold extmarkIntervals
  rw [overlapping_visible sound low high, Option.map_some, List.filterMap_map]
  rfl

/-- The row of the index is painted as the row of the scan. -/
theorem merge_visible {base : Nat} {before after : List HlInterval}
    (beneath : ∀ other ∈ before ++ after, ∀ mark ∈ store.allMarks,
      other.priority = mark.2.payload.priority → other.order < base) :
    mergeIntervals (before ++ intervalsBy lo (lo + len) base (rank (visible store first last))
      (scanned store lo (lo + len)) ++ after) =
      mergeIntervals (before ++ scanIntervals store lo len base ++ after) := by
  rw [scanIntervals_eq sound]
  apply merge_ranks
  · intro a here b there
    have near := mem_scanned low high here
    have near' := mem_scanned low high there
    rw [rank_lt_iff near.1 near'.1, rank_lt_iff near.2 near'.2]
  · intro other listed mark here
    exact beneath other listed mark (List.mem_filter.1 (mem_scanned low high here).2).1

end Painting

/-- **Highlights are exact.**  Merging paints each byte as its winner and nothing else; and in every
store that calls reach the index of a viewport finds the marks of a row that all the marks of the
buffer have there, and paints the row as a scan of them all does, over whatever is beneath. -/
theorem highlights_exact {calls : List (Call Highlight)} {s : Stores Highlight}
    (reached : Run.run Stores.step Stores.initial calls = some s) (i : Nat) (buf : MarkedBuffer)
    (held : buf.extmarks = s.stores i) (segs : List RowSeg) :
    (∀ intervals, Tidy (mergeIntervals intervals) ∧
      (∀ byte color, Painted (mergeIntervals intervals) byte color ↔
        ∃ iv, Wins intervals iv byte ∧ iv.paint = color) ∧
      ∀ byte, (∃ color, Painted (mergeIntervals intervals) byte color) ↔
        ∃ iv ∈ intervals, iv.Covers byte) ∧
    ∃ index, HlMarkIndex.build buf segs = some index ∧
      (∀ first last, viewportByteRange buf segs = some (first, last) →
        ∀ lo hi, first ≤ lo → hi ≤ last → ∃ found, index.overlapping lo hi = some found ∧
          found.map Prod.snd = (scanned buf.extmarks lo hi).map Prod.snd) ∧
      ∀ seg ∈ segs, ∀ n, seg.line = some n → ∀ len ≤ size (buf.lineCow (n - 1)),
        (∃ first last, viewportByteRange buf segs = some (first, last) ∧
          first ≤ lineStart buf.text (n - 1) ∧ lineStart buf.text (n - 1) + len ≤ last) ∧
        ∀ base, ∃ ext, extmarkIntervals index (lineStart buf.text (n - 1)) len base = some ext ∧
          ∀ before after, (∀ other ∈ before ++ after, ∀ mark ∈ buf.extmarks.allMarks,
              other.priority = mark.2.payload.priority → other.order < base) →
            mergeIntervals (before ++ ext ++ after) = mergeIntervals (before ++
              scanIntervals buf.extmarks (lineStart buf.text (n - 1)) len base ++ after) := by
  have sound : buf.extmarks.Sound := held ▸ Stores.reached_sound reached i
  refine ⟨fun intervals => ⟨(merge_paints intervals).1, (merge_paints intervals).2,
    exists_painted intervals⟩, ?_⟩
  cases viewport : viewportByteRange buf segs with
  | none =>
      refine ⟨⟨[], []⟩, build_none viewport, ?_, ?_⟩
      · intro first last impossible
        cases impossible
      · intro seg listed n shows len text
        rcases row_inside listed shows text with ⟨first, last, there, -⟩
        rw [viewport] at there
        cases there
  | some range =>
      rcases range with ⟨first, last⟩
      refine ⟨.ofMarks (ranked (visible buf.extmarks first last)), build_visible sound viewport, ?_, ?_⟩
      · intro first' last' same lo hi low high
        cases same
        exact ⟨_, overlapping_visible sound low high, by rw [List.map_map]; rfl⟩
      · intro seg listed n shows len text
        rcases row_inside listed shows text with ⟨first', last', there, low, high⟩
        rw [viewport] at there
        cases there
        exact ⟨⟨first, last, rfl, low, high⟩, fun base => ⟨_, extmarkIntervals_visible sound low high base,
          fun before after beneath => merge_visible sound low high beneath⟩⟩

/-- Two lines, three marks: one over both, one on each, and the second line shown. -/
def lit : List (Call Highlight) :=
  [.set 0 7 none 0 (some 5) ⟨some ['A'], 10⟩ true false,
    .set 0 3 none 1 (some 2) ⟨some ['B'], 20⟩ true false,
    .set 0 7 none 3 (some 4) ⟨some ['C'], 10⟩ true false]

/-- A buffer of these marks. -/
def litBuffer (extmarks : Extmarks.ExtmarkStore Highlight) : MarkedBuffer where
  text := ['a', 'b', '\n', 'c', 'd', '\n']
  modified := false
  options := ⟨true, true, .unix, "", false⟩
  changedtick := 0
  saveTick := 0
  edits := .empty
  lspEdits := .empty
  luaTsEdits := .empty
  mirrorEdits := .empty
  foldEdits := .empty
  jumpEdits := []
  extmarks := extmarks
  marks := fun _ => none
  changelist := []
  changelistidx := 0
  changeSpan := none

theorem highlights_exact_lit : ∃ s : Stores Highlight, Run.run Stores.step Stores.initial lit = some s ∧
    ∃ index, HlMarkIndex.build (litBuffer (s.stores 0)) [⟨some 2⟩] = some index ∧
      ∃ found, index.overlapping 3 5 = some found ∧
        found.map Prod.snd = (scanned (s.stores 0) 3 5).map Prod.snd := by
  have enabled : (Run.run Stores.step Stores.initial lit).isSome = true := by decide
  rcases Option.isSome_iff_exists.1 enabled with ⟨s, reached⟩
  rcases highlights_exact reached 0 (litBuffer (s.stores 0)) rfl [⟨some 2⟩] with
    ⟨-, index, built, exact_rows, -⟩
  exact ⟨s, reached, index, built, exact_rows 3 6 rfl 3 5 (by decide) (by decide)⟩

end Bemtvi.Server.Highlights
