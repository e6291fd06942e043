/-
Module: Bemtvi.Lib.Sorted
Purpose: Sorted lists: the places where a test stops holding, the windows between two of them, sorting
  one window again after its elements moved, and that a list sorted by distinct keys is the only one.
Trusted boundary: human-reviewed spec
Main exports: partitionPoint, Partitioned, take_partitionPoint, drop_partitionPoint, window_eq,
  window_filter, Near, resort_perm, resort_pairwise, eq_insertionSort, filter_insertionSort
-/
import Mathlib

namespace Bemtvi.Sorted

variable {α : Type}

/-- `partition_point`, of a list that starts with all the elements the test accepts. -/
def partitionPoint (xs : List α) (test : α → Bool) : Nat := (xs.takeWhile test).length

/-- All the elements that a test accepts come first. -/
def Partitioned (test : α → Bool) (xs : List α) : Prop :=
  xs.Pairwise fun a b => test b = true → test a = true

/-! ### Partition points -/

theorem take_partitionPoint (xs : List α) (test : α → Bool) :
    xs.take (partitionPoint xs test) = xs.takeWhile test := by
  have whole : xs.takeWhile test ++ xs.dropWhile test = xs := List.takeWhile_append_dropWhile
  rw [partitionPoint]
  nth_rewrite 2 [← whole]
  exact List.take_left

theorem drop_partitionPoint (xs : List α) (test : α → Bool) :
    xs.drop (partitionPoint xs test) = xs.dropWhile test := by
  have whole : xs.takeWhile test ++ xs.dropWhile test = xs := List.takeWhile_append_dropWhile
  rw [partitionPoint]
  nth_rewrite 2 [← whole]
  exact List.drop_left

variable {test : α → Bool} {x : α} {ys : List α}

/-- No element behind one that a test refuses is accepted. -/
theorem Partitioned.none_behind {xs : List α} (parted : Partitioned test (x :: xs))
    (refused : ¬ test x = true) : ∀ y ∈ x :: xs, ¬ test y = true := by
  intro y member accepted
  rcases List.mem_cons.1 member with rfl | later
  · exact refused accepted
  · exact refused ((List.pairwise_cons.1 parted).1 y later accepted)

theorem Partitioned.takeWhile_eq {xs : List α} (parted : Partitioned test xs) :
    xs.takeWhile test = xs.filter test := by
  induction xs with
  | nil => rfl
  | cons x xs ih =>
      by_cases accepted : test x = true
      · rw [List.takeWhile_cons_of_pos accepted, List.filter_cons_of_pos accepted,
          ih (List.pairwise_cons.1 parted).2]
      · rw [List.takeWhile_cons_of_neg accepted,
          List.filter_eq_nil_iff.2 (parted.none_behind accepted)]

theorem Partitioned.dropWhile_eq {xs : List α} (parted : Partitioned test xs) :
    xs.dropWhile test = xs.filter fun x => ! test x := by
  induction xs with
  | nil => rfl
  | cons x xs ih =>
      by_cases accepted : test x = true
      · rw [List.dropWhile_cons_of_pos accepted, List.filter_cons_of_neg (by simp [accepted]),
          ih (List.pairwise_cons.1 parted).2]
      · rw [List.dropWhile_cons_of_neg accepted, List.filter_eq_self.2]
        intro y member
        simp [parted.none_behind accepted y member]

theorem Partitioned.sublist {xs : List α} (parted : Partitioned test ys)
    (sub : List.Sublist xs ys) : Partitioned test xs :=
  List.Pairwise.sublist sub parted

/-! ### Windows -/

theorem partitionPoint_cons (accepted : test x = true) (xs : List α) :
    partitionPoint (x :: xs) test = partitionPoint xs test + 1 := by
  rw [partitionPoint, List.takeWhile_cons_of_pos accepted]
  rfl

theorem partitionPoint_cons_neg (refused : ¬ test x = true) (xs : List α) :
    partitionPoint (x :: xs) test = 0 := by
  rw [partitionPoint, List.takeWhile_cons_of_neg refused]
  rfl

theorem partitionPoint_le {p q : α → Bool} (within : ∀ x, p x = true → q x = true) (xs : List α) :
    partitionPoint xs p ≤ partitionPoint xs q := by
  induction xs with
  | nil => exact Nat.le_refl _
  | cons x xs ih =>
      by_cases accepted : p x = true
      · rw [partitionPoint_cons accepted, partitionPoint_cons (within x accepted)]
        exact Nat.succ_le_succ ih
      · rw [partitionPoint_cons_neg accepted]
        exact Nat.zero_le _

/-- The window between two partition points, one test within the other. -/
theorem window_eq {p q : α → Bool} (within : ∀ x, p x = true → q x = true) (xs : List α) :
    (xs.drop (partitionPoint xs p)).take (partitionPoint xs q - partitionPoint xs p) =
      (xs.dropWhile p).takeWhile q := by
  induction xs with
  | nil => rfl
  | cons x xs ih =>
      by_cases accepted : p x = true
      · rw [partitionPoint_cons accepted, partitionPoint_cons (within x accepted),
          Nat.add_sub_add_right, List.drop_succ_cons, ih, List.dropWhile_cons_of_pos accepted]
      · rw [partitionPoint_cons_neg accepted, Nat.sub_zero, List.drop_zero, take_partitionPoint,
          List.dropWhile_cons_of_neg accepted]

/-- **The window between two partition points holds what the one test refuses and the other
accepts.** -/
theorem window_filter {p q : α → Bool} {xs : List α} (within : ∀ x, p x = true → q x = true)
    (parted_p : Partitioned p xs) (parted_q : Partitioned q xs) :
    (xs.drop (partitionPoint xs p)).take (partitionPoint xs q - partitionPoint xs p) =
      xs.filter fun x => ! p x && q x := by
  rw [window_eq within, (parted_q.sublist (List.dropWhile_sublist p)).takeWhile_eq,
    parted_p.dropWhile_eq, List.filter_filter]
  apply List.filter_congr
  intro x _
  exact Bool.and_comm _ _

/-- The same where either test may be within the other. -/
theorem window_max {p q : α → Bool} {xs : List α}
    (nested : (∀ x, p x = true → q x = true) ∨ ∀ x, q x = true → p x = true)
    (parted_p : Partitioned p xs) (parted_q : Partitioned q xs) :
    (xs.drop (partitionPoint xs p)).take
        (max (partitionPoint xs q) (partitionPoint xs p) - partitionPoint xs p) =
      xs.filter fun x => ! p x && q x := by
  rcases nested with within | within
  · rw [max_eq_left (partitionPoint_le within xs)]
    exact window_filter within parted_p parted_q
  · rw [max_eq_right (partitionPoint_le within xs), Nat.sub_self, List.take_zero]
    symm
    rw [List.filter_eq_nil_iff]
    intro x _ both
    have parts := Bool.and_eq_true_iff.1 both
    rw [within x parts.2] at parts
    simp at parts

/-! ### Sorting a window again -/

variable {le : α → α → Prop}

/-- In order, but for elements that share the window between two tests. -/
def Near (le : α → α → Prop) (p q : α → Bool) (xs : List α) : Prop :=
  xs.Pairwise fun a b =>
    le a b ∨ ((! p a && q a) = true ∧ (! p b && q b) = true)

/-- A test that holds below whatever it holds of. -/
def Lower (le : α → α → Prop) (test : α → Bool) : Prop :=
  ∀ a b, le a b → test b = true → test a = true

theorem Near.parted_lower {p q : α → Bool} {xs : List α} (near : Near le p q xs)
    (lower : Lower le p) : Partitioned p xs := by
  refine List.Pairwise.imp ?_ near
  rintro a b (ordered | ⟨-, shared⟩) accepted
  · exact lower a b ordered accepted
  · simp [accepted] at shared

theorem Near.parted_upper {p q : α → Bool} {xs : List α} (near : Near le p q xs)
    (lower : Lower le q) : Partitioned q xs := by
  refine List.Pairwise.imp ?_ near
  rintro a b (ordered | ⟨shared, -⟩) accepted
  · exact lower a b ordered accepted
  · exact (Bool.and_eq_true_iff.1 shared).2

theorem parted_of_sorted {xs : List α} (sorted : xs.Pairwise le) (lower : Lower le test) :
    Partitioned test xs :=
  sorted.imp fun {a b} ordered => lower a b ordered

/-- What a lower test accepts is before what it refuses. -/
theorem Lower.apart [Std.Total le] (lower : Lower le test) {a b : α} (accepted : test a = true)
    (refused : ¬ test b = true) : le a b := by
  rcases Std.Total.total (r := le) a b with ordered | ordered
  · exact ordered
  · exact absurd (lower b a ordered accepted) refused

variable [DecidableRel le] {p q : α → Bool} {xs : List α}

/-- A list with the window between two tests sorted. -/
def resorted (le : α → α → Prop) [DecidableRel le] (p q : α → Bool) (xs : List α) : List α :=
  xs.filter p ++ (xs.filter fun x => ! p x && q x).insertionSort le ++ xs.filter fun x => ! q x

/-- The window between the partition points of a list, sorted where it stands. -/
theorem resorted_eq {lower upper : Nat} (within : ∀ x, p x = true → q x = true)
    (parted_p : Partitioned p xs) (parted_q : Partitioned q xs)
    (at_lower : lower = partitionPoint xs p) (at_upper : upper = partitionPoint xs q) :
    (if upper > lower then
      xs.take lower ++ ((xs.drop lower).take (upper - lower)).insertionSort le ++ xs.drop upper
    else xs) = resorted le p q xs := by
  have window := window_filter within parted_p parted_q
  rw [resorted, ← parted_p.takeWhile_eq, ← parted_q.dropWhile_eq, ← take_partitionPoint,
    ← drop_partitionPoint, ← window, at_lower, at_upper]
  by_cases wide : partitionPoint xs q > partitionPoint xs p
  · rw [if_pos wide]
  · have same := Nat.le_antisymm (partitionPoint_le within xs) (Nat.not_lt.1 wide)
    rw [if_neg wide, same, Nat.sub_self, List.take_zero, List.insertionSort_nil, List.append_nil,
      List.take_append_drop]

theorem resort_perm (within : ∀ x, p x = true → q x = true) :
    (resorted le p q xs).Perm xs := by
  have split_q := List.filter_append_perm q xs
  have split_p := List.filter_append_perm p (xs.filter q)
  have same_p : (xs.filter q).filter p = xs.filter p := by
    rw [List.filter_filter]
    apply List.filter_congr
    intro x _
    by_cases accepted : p x = true
    · rw [accepted, within x accepted]
      rfl
    · simp [accepted]
  rw [same_p, List.filter_filter] at split_p
  have sorted := List.perm_insertionSort le (xs.filter fun x => ! p x && q x)
  exact (((sorted.append_left _).trans split_p).append_right _).trans split_q

/-- **Sorting the window again sorts the whole.** -/
theorem resort_pairwise [Std.Total le] [IsTrans α le]
    (within : ∀ x, p x = true → q x = true) (near : Near le p q xs) (lower_p : Lower le p)
    (lower_q : Lower le q) : (resorted le p q xs).Pairwise le := by
  have before : (xs.filter p).Pairwise le := by
    rw [List.pairwise_filter]
    refine List.Pairwise.imp ?_ near
    rintro a b (ordered | ⟨shared, -⟩) accepted _
    · exact ordered
    · simp [accepted] at shared
  have behind : (xs.filter fun x => ! q x).Pairwise le := by
    rw [List.pairwise_filter]
    refine List.Pairwise.imp ?_ near
    rintro a b (ordered | ⟨shared, -⟩) refused _
    · exact ordered
    · rw [(Bool.and_eq_true_iff.1 shared).2] at refused
      cases refused
  rw [resorted, List.pairwise_append, List.pairwise_append]
  refine ⟨⟨before, List.pairwise_insertionSort le _, ?_⟩, behind, ?_⟩
  · intro a first b second
    rw [List.mem_insertionSort, List.mem_filter] at second
    have refused : ¬ p b = true := by
      have parts := Bool.and_eq_true_iff.1 second.2
      simpa using parts.1
    exact lower_p.apart (List.mem_filter.1 first).2 refused
  · intro a front b last
    have refused : ¬ q b = true := by simpa using (List.mem_filter.1 last).2
    have accepted : q a = true := by
      rcases List.mem_append.1 front with first | second
      · exact within a (List.mem_filter.1 first).2
      · rw [List.mem_insertionSort, List.mem_filter] at second
        exact (Bool.and_eq_true_iff.1 second.2).2
    exact lower_q.apart accepted refused

/-! ### The one sorted list -/

variable [Std.Total le] [IsTrans α le]

/-- Elements that are each before the other are the same. -/
def Distinct (le : α → α → Prop) (xs : List α) : Prop :=
  ∀ a ∈ xs, ∀ b ∈ xs, le a b → le b a → a = b

/-- A sorted list of the same distinct elements is the sort. -/
theorem eq_insertionSort (distinct : Distinct le ys) (sorted : xs.Pairwise le) (same : xs.Perm ys) :
    xs = ys.insertionSort le := by
  apply List.Perm.eq_of_pairwise _ sorted (List.pairwise_insertionSort le ys)
    (same.trans (List.perm_insertionSort le ys).symm)
  intro a b left right
  exact distinct a (same.subset left) b (List.mem_insertionSort le |>.1 right)

theorem insertionSort_perm (distinct : Distinct le ys) (same : xs.Perm ys) :
    xs.insertionSort le = ys.insertionSort le :=
  eq_insertionSort distinct (List.pairwise_insertionSort le xs)
    ((List.perm_insertionSort le xs).trans same)

theorem filter_insertionSort (distinct : Distinct le xs) (test : α → Bool) :
    (xs.insertionSort le).filter test = (xs.filter test).insertionSort le := by
  apply eq_insertionSort
  · intro a left b right
    exact distinct a (List.mem_filter.1 left).1 b (List.mem_filter.1 right).1
  · exact (List.pairwise_insertionSort le xs).filter test
  · exact (List.perm_insertionSort le xs).filter test

end Bemtvi.Sorted
