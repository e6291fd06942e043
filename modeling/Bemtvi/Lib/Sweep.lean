/-
Module: Bemtvi.Lib.Sweep
Purpose: A sweep over sorted points.  Each window between two neighbours is painted or left out, and a
  run of windows of one colour is one segment: the segments are apart and ascend, and a place has the
  colour of its window.
Trusted boundary: none
Main exports: windows, exists_window, windows_whole, Segment, extend, Tidy, Painted, sweep, sweep_tidy,
  sweep_painted
-/
import Mathlib

namespace Bemtvi.Sweep

/-! ### Windows -/

/-- The neighbours in a list. -/
def windows (points : List Nat) : List (Nat × Nat) := points.zip points.tail

theorem windows_cons (p q : Nat) (points : List Nat) :
    windows (p :: q :: points) = (p, q) :: windows (q :: points) := rfl

variable {points : List Nat} {place : Nat}

/-- A window's edges are points. -/
theorem mem_of_window {window : Nat × Nat} (listed : window ∈ windows points) :
    window.1 ∈ points ∧ window.2 ∈ points :=
  ⟨(List.of_mem_zip listed).1, List.mem_of_mem_tail (List.of_mem_zip listed).2⟩

theorem window_lt (ascending : points.Pairwise (· < ·)) {window : Nat × Nat}
    (listed : window ∈ windows points) : window.1 < window.2 := by
  induction points with
  | nil => exact absurd listed List.not_mem_nil
  | cons p points ih =>
      cases points with
      | nil => exact absurd listed List.not_mem_nil
      | cons q points =>
          rcases List.pairwise_cons.1 ascending with ⟨first, ascending⟩
          rw [windows_cons] at listed
          rcases List.mem_cons.1 listed with same | later
          · rw [same]
            exact first q List.mem_cons_self
          · exact ih ascending later

theorem windows_apart (ascending : points.Pairwise (· < ·)) :
    (windows points).Pairwise fun a b => a.2 ≤ b.1 := by
  induction points with
  | nil => exact List.Pairwise.nil
  | cons p points ih =>
      cases points with
      | nil => exact List.Pairwise.nil
      | cons q points =>
          rcases List.pairwise_cons.1 ascending with ⟨-, ascending⟩
          rw [windows_cons]
          refine List.pairwise_cons.2 ⟨fun window later => ?_, ih ascending⟩
          rcases List.mem_cons.1 (mem_of_window later).1 with same | further
          · exact Nat.le_of_eq same.symm
          · exact Nat.le_of_lt ((List.pairwise_cons.1 ascending).1 window.1 further)

/-- No point is inside a window. -/
theorem windows_whole (ascending : points.Pairwise (· < ·)) {window : Nat × Nat}
    (listed : window ∈ windows points) {point : Nat} (other : point ∈ points) :
    point ≤ window.1 ∨ window.2 ≤ point := by
  induction points with
  | nil => exact absurd listed List.not_mem_nil
  | cons p points ih =>
      cases points with
      | nil => exact absurd listed List.not_mem_nil
      | cons q points =>
          rcases List.pairwise_cons.1 ascending with ⟨first, ascending⟩
          rw [windows_cons] at listed
          rcases List.mem_cons.1 listed with same | later
          · rw [same]
            rcases List.mem_cons.1 other with here | further
            · exact Or.inl (Nat.le_of_eq here)
            · rcases List.mem_cons.1 further with next | further
              · exact Or.inr (Nat.le_of_eq next.symm)
              · exact Or.inr (Nat.le_of_lt ((List.pairwise_cons.1 ascending).1 point further))
          · rcases List.mem_cons.1 other with here | further
            · exact Or.inl (here ▸ Nat.le_of_lt (first _ (mem_of_window later).1))
            · exact ih ascending later further

/-- A place between two points is in a window. -/
theorem exists_window (ascending : points.Pairwise (· < ·)) {lo hi : Nat} (low : lo ∈ points)
    (high : hi ∈ points) (above : lo ≤ place) (below : place < hi) :
    ∃ window ∈ windows points, window.1 ≤ place ∧ place < window.2 := by
  induction points generalizing lo with
  | nil => exact absurd low List.not_mem_nil
  | cons p points ih =>
      rcases List.pairwise_cons.1 ascending with ⟨first, ascending⟩
      have start : p ≤ place := by
        rcases List.mem_cons.1 low with same | later
        · exact same ▸ above
        · exact Nat.le_trans (Nat.le_of_lt (first lo later)) above
      have high : hi ∈ points := by
        rcases List.mem_cons.1 high with same | later
        · omega
        · exact later
      cases points with
      | nil => exact absurd high List.not_mem_nil
      | cons q points =>
          rw [windows_cons]
          rcases Nat.lt_or_ge place q with here | further
          · exact ⟨(p, q), List.mem_cons_self, start, here⟩
          · rcases ih ascending List.mem_cons_self high further with ⟨window, listed, inside⟩
            exact ⟨window, List.mem_cons_of_mem _ listed, inside⟩

/-! ### Segments -/

structure Segment (κ : Type) where
  start : Nat
  stop : Nat
  color : κ
deriving Repr, DecidableEq

variable {κ : Type}

def Segment.Covers (segment : Segment κ) (place : Nat) : Prop :=
  segment.start ≤ place ∧ place < segment.stop

/-- Segments of some places each, ascending and apart. -/
structure Tidy (segments : List (Segment κ)) : Prop where
  nonempty : ∀ segment ∈ segments, segment.start < segment.stop
  apart : segments.Pairwise fun a b => a.stop ≤ b.start

/-- A segment gives a place its colour. -/
def Painted (segments : List (Segment κ)) (place : Nat) (color : κ) : Prop :=
  ∃ segment ∈ segments, segment.Covers place ∧ segment.color = color

/-- A stretch behind segments: the last of them grows where it ends there in the colour. -/
def extend [DecidableEq κ] (out : List (Segment κ)) (p q : Nat) (color : κ) : List (Segment κ) :=
  match out.getLast? with
  | some last =>
      if last.stop = p ∧ last.color = color then out.dropLast ++ [{ last with stop := q }]
      else out ++ [⟨p, q, color⟩]
  | none => out ++ [⟨p, q, color⟩]

variable [DecidableEq κ]

/-- Either way a stretch joins. -/
theorem extend_cases (out : List (Segment κ)) (p q : Nat) (color : κ) :
    extend out p q color = out ++ [⟨p, q, color⟩] ∨
      ∃ front start, out = front ++ [⟨start, p, color⟩] ∧
        extend out p q color = front ++ [⟨start, q, color⟩] := by
  unfold extend
  rcases List.eq_nil_or_concat out with none_yet | ⟨front, last, whole⟩
  · rw [none_yet]
    exact Or.inl rfl
  · rw [whole, List.concat_eq_append, List.getLast?_concat, List.dropLast_concat]
    simp only
    split
    · next joins =>
        rcases last with ⟨start, stop, color'⟩
        rcases joins with ⟨rfl, rfl⟩
        exact Or.inr ⟨front, start, rfl, rfl⟩
    · exact Or.inl rfl

omit [DecidableEq κ] in
theorem painted_append {front back : List (Segment κ)} {color : κ} :
    Painted (front ++ back) place color ↔ Painted front place color ∨ Painted back place color := by
  unfold Painted
  constructor
  · rintro ⟨segment, listed, covers⟩
    rcases List.mem_append.1 listed with old | new
    · exact Or.inl ⟨segment, old, covers⟩
    · exact Or.inr ⟨segment, new, covers⟩
  · rintro (⟨segment, listed, covers⟩ | ⟨segment, listed, covers⟩)
    · exact ⟨segment, List.mem_append_left _ listed, covers⟩
    · exact ⟨segment, List.mem_append_right _ listed, covers⟩

omit [DecidableEq κ] in
theorem painted_single {p q : Nat} {color color' : κ} :
    Painted [⟨p, q, color⟩] place color' ↔ p ≤ place ∧ place < q ∧ color = color' := by
  unfold Painted
  simp only [List.mem_singleton, exists_eq_left]
  exact and_assoc

section Extend

variable {out : List (Segment κ)} (tidy : Tidy out) {p q : Nat} (further : p < q)
  (behind : ∀ segment ∈ out, segment.stop ≤ p) (color : κ)
include tidy further behind

/-- Segments that end by a stretch stay tidy with it, and end by its end. -/
theorem extend_tidy : Tidy (extend out p q color) ∧
    ∀ segment ∈ extend out p q color, segment.stop ≤ q := by
  rcases extend_cases out p q color with joined | ⟨front, start, whole, grown⟩
  · rw [joined]
    refine ⟨⟨?_, ?_⟩, ?_⟩
    · intro segment listed
      rcases List.mem_append.1 listed with old | new
      · exact tidy.nonempty segment old
      · exact List.mem_singleton.1 new ▸ further
    · refine List.pairwise_append.2 ⟨tidy.apart, List.pairwise_singleton _ _, ?_⟩
      intro segment old last new
      exact List.mem_singleton.1 new ▸ behind segment old
    · intro segment listed
      rcases List.mem_append.1 listed with old | new
      · exact Nat.le_trans (behind segment old) (Nat.le_of_lt further)
      · exact Nat.le_of_eq (congrArg Segment.stop (List.mem_singleton.1 new))
  · rw [grown]
    rw [whole] at tidy behind
    rcases List.pairwise_append.1 tidy.apart with ⟨apart, -, before⟩
    have own : start < p := tidy.nonempty ⟨start, p, color⟩ (List.mem_append_right _ List.mem_cons_self)
    refine ⟨⟨?_, ?_⟩, ?_⟩
    · intro segment listed
      rcases List.mem_append.1 listed with old | new
      · exact tidy.nonempty segment (List.mem_append_left _ old)
      · exact List.mem_singleton.1 new ▸ Nat.lt_trans own further
    · refine List.pairwise_append.2 ⟨apart, List.pairwise_singleton _ _, ?_⟩
      intro segment old last new
      rw [List.mem_singleton.1 new]
      exact before segment old ⟨start, p, color⟩ List.mem_cons_self
    · intro segment listed
      rcases List.mem_append.1 listed with old | new
      · exact Nat.le_trans (behind segment (List.mem_append_left _ old)) (Nat.le_of_lt further)
      · exact Nat.le_of_eq (congrArg Segment.stop (List.mem_singleton.1 new))

omit behind in
/-- A stretch paints its own places. -/
theorem extend_painted {place : Nat} {color' : κ} : Painted (extend out p q color) place color' ↔
    Painted out place color' ∨ (p ≤ place ∧ place < q ∧ color = color') := by
  rcases extend_cases out p q color with joined | ⟨front, start, whole, grown⟩
  · rw [joined, painted_append, painted_single]
  · rw [grown, whole, painted_append, painted_append, painted_single, painted_single, or_assoc]
    rw [whole] at tidy
    have own : start < p := tidy.nonempty ⟨start, p, color⟩ (List.mem_append_right _ List.mem_cons_self)
    apply or_congr_right
    constructor
    · rintro ⟨above, below, same⟩
      rcases Nat.lt_or_ge place p with here | later
      · exact Or.inl ⟨above, here, same⟩
      · exact Or.inr ⟨later, below, same⟩
    · rintro (⟨above, below, same⟩ | ⟨above, below, same⟩)
      · exact ⟨above, Nat.lt_trans below further, same⟩
      · exact ⟨Nat.le_trans (Nat.le_of_lt own) above, below, same⟩

end Extend

/-! ### The sweep -/

/-- Paint windows one by one. -/
def sweep (choose : Nat → Nat → Option κ) (ws : List (Nat × Nat)) (out : List (Segment κ)) :
    List (Segment κ) :=
  ws.foldl (fun out window =>
    if window.1 ≥ window.2 then out
    else
      match choose window.1 window.2 with
      | some color => extend out window.1 window.2 color
      | none => out) out

variable {choose : Nat → Nat → Option κ} {ws : List (Nat × Nat)}
  (wide : ∀ window ∈ ws, window.1 < window.2) (apart : ws.Pairwise fun a b => a.2 ≤ b.1)
include wide apart

/-- Segments that end by the first window stay tidy, and each window paints its places. -/
theorem sweep_from {out : List (Segment κ)} (tidy : Tidy out)
    (behind : ∀ window ∈ ws, ∀ segment ∈ out, segment.stop ≤ window.1) :
    Tidy (sweep choose ws out) ∧ ∀ place color, Painted (sweep choose ws out) place color ↔
      Painted out place color ∨ ∃ window ∈ ws, window.1 ≤ place ∧ place < window.2 ∧
        choose window.1 window.2 = some color := by
  induction ws generalizing out with
  | nil =>
      refine ⟨tidy, fun place color => ?_⟩
      simp [sweep]
  | cons window ws ih =>
      rcases List.pairwise_cons.1 apart with ⟨first, apart⟩
      have further := wide window List.mem_cons_self
      have wide := fun other member => wide other (List.mem_cons_of_mem window member)
      simp only [List.exists_mem_cons_iff]
      unfold sweep at ih ⊢
      rw [List.foldl_cons, if_neg (Nat.not_le.2 further)]
      cases chosen : choose window.1 window.2 with
      | none =>
          rcases ih wide apart tidy fun other member => behind other (List.mem_cons_of_mem _ member) with
            ⟨tidy, painted⟩
          refine ⟨tidy, fun place color => ?_⟩
          rw [painted]
          apply or_congr_right
          constructor
          · exact Or.inr
          · rintro (⟨-, -, impossible⟩ | found)
            · cases impossible
            · exact found
      | some color =>
          have before := behind window List.mem_cons_self
          rcases extend_tidy tidy further before color with ⟨tidy', ends⟩
          rcases ih wide apart tidy' fun other member segment listed =>
            Nat.le_trans (ends segment listed) (first other member) with ⟨last, painted⟩
          refine ⟨last, fun place color' => ?_⟩
          rw [painted, extend_painted tidy further, or_assoc, Option.some_inj]

theorem sweep_tidy : Tidy (sweep choose ws []) :=
  (sweep_from wide apart ⟨fun _ none_yet => absurd none_yet List.not_mem_nil, List.Pairwise.nil⟩
    fun _ _ _ none_yet => absurd none_yet List.not_mem_nil).1

/-- **A place has the colour of its window.** -/
theorem sweep_painted (place : Nat) (color : κ) : Painted (sweep choose ws []) place color ↔
    ∃ window ∈ ws, window.1 ≤ place ∧ place < window.2 ∧ choose window.1 window.2 = some color := by
  rw [(sweep_from wide apart
    ⟨fun _ none_yet => absurd none_yet List.not_mem_nil, List.Pairwise.nil⟩
    fun _ _ _ none_yet => absurd none_yet List.not_mem_nil).2 place color]
  constructor
  · rintro (⟨segment, listed, -⟩ | found)
    · exact absurd listed List.not_mem_nil
    · exact found
  · exact Or.inr

end Bemtvi.Sweep
