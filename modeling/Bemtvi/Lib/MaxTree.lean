/-
Module: Bemtvi.Lib.MaxTree
Purpose: A segment tree of largest values, laid out in a list, and the search for the places below a
  bound whose value reaches a limit: an explicit stack that leaves out every subtree whose
  largest value does not reach it.
Trusted boundary: human-reviewed spec
Main exports: leavesFor, build, search, fill_spec, Covers, walk_spec, search_spec
-/
import Mathlib

namespace Bemtvi.MaxTree

/-! ### The tree -/

/-- The first power of two from `power` on that is no less than `n`. -/
def powerFrom : Nat → Nat → Nat → Nat
  | 0, power, _ => power
  | fuel + 1, power, n => if n ≤ power then power else powerFrom fuel (2 * power) n

/-- `next_power_of_two`. -/
def leavesFor (n : Nat) : Nat := powerFrom n 1 n

/-- The inner nodes from `node` down to the root, each the larger of its children. -/
def fill : Nat → List Nat → List Nat
  | 0, tree => tree
  | node + 1, tree =>
      fill node (tree.set (node + 1)
        (max (tree.getD (2 * (node + 1)) 0) (tree.getD (2 * (node + 1) + 1) 0)))

/-- The leaves stand behind the inner nodes, the root at 1. -/
def build (values : List Nat) : Nat × List Nat :=
  let leaves := leavesFor values.length
  let tree := List.replicate leaves 0 ++ values ++ List.replicate (leaves - values.length) 0
  (leaves, fill (leaves - 1) tree)

/-! ### The search -/

/-- A node, its first leaf and how many it has. -/
abbrev Frame := Nat × Nat × Nat

/-- The search loop: the places found, in order.  `none` when the fuel is gone, or at a node that the
tree does not have. -/
def walk (tree : List Nat) (upto lo : Nat) : Nat → List Frame → Option (List Nat)
  | _, [] => some []
  | 0, _ :: _ => none
  | fuel + 1, (node, first, count) :: stack =>
      if first ≥ upto then walk tree upto lo fuel stack
      else
        match tree[node]? with
        | none => none
        | some top =>
            if top < lo then walk tree upto lo fuel stack
            else if count = 1 then (walk tree upto lo fuel stack).map (first :: ·)
            else
              let half := count / 2
              walk tree upto lo fuel
                ((2 * node, first, half) :: (2 * node + 1, first + half, half) :: stack)

/-- The places below `upto` whose value reaches `lo`. -/
def search (tree : Nat × List Nat) (upto lo : Nat) : Option (List Nat) :=
  if upto = 0 then some [] else walk tree.2 upto lo (2 * tree.1) [(1, 0, tree.1)]

/-! ### Powers of two -/

theorem powerFrom_spec (fuel k n : Nat) (enough : n ≤ 2 ^ (k + fuel)) :
    ∃ k', powerFrom fuel (2 ^ k) n = 2 ^ k' ∧ n ≤ 2 ^ k' := by
  induction fuel generalizing k with
  | zero => exact ⟨k, rfl, enough⟩
  | succ fuel ih =>
      rw [powerFrom]
      by_cases fits : n ≤ 2 ^ k
      · exact ⟨k, if_pos fits, fits⟩
      · rw [if_neg fits, ← pow_succ']
        exact ih (k + 1) (by rw [Nat.succ_add_eq_add_succ]; exact enough)

theorem leavesFor_spec (n : Nat) : ∃ k, leavesFor n = 2 ^ k ∧ n ≤ 2 ^ k :=
  powerFrom_spec n 0 n (by rw [Nat.zero_add]; exact Nat.lt_two_pow_self.le)

/-! ### What the nodes hold -/

theorem length_fill (node : Nat) (tree : List Nat) : (fill node tree).length = tree.length := by
  induction node generalizing tree with
  | zero => rfl
  | succ node ih => rw [fill, ih, List.length_set]

variable {node first k leaves lo upto : Nat} {values : List Nat}

/-- The nodes behind `node` stay. -/
theorem fill_behind {at_node : Nat} (tree : List Nat) (behind : node < at_node) :
    (fill node tree)[at_node]? = tree[at_node]? := by
  induction node generalizing tree with
  | zero => rfl
  | succ node ih =>
      rw [fill, ih _ (Nat.lt_of_succ_lt behind), List.getElem?_set_ne (Nat.ne_of_lt behind)]

/-- The inner nodes up to `node` hold the larger of their children. -/
theorem fill_spec {at_node : Nat} {tree : List Nat} (inner : 0 < at_node)
    (within : at_node ≤ node) (room : 2 * node + 1 < tree.length) :
    (fill node tree)[at_node]? = some (max ((fill node tree).getD (2 * at_node) 0)
      ((fill node tree).getD (2 * at_node + 1) 0)) := by
  induction node generalizing tree with
  | zero => omega
  | succ node ih =>
      rw [fill]
      by_cases last : at_node = node + 1
      · subst last
        rw [fill_behind _ (Nat.lt_succ_self node), List.getElem?_set_self (by omega)]
        simp only [List.getD_eq_getElem?_getD]
        rw [fill_behind _ (by omega), fill_behind _ (by omega), List.getElem?_set_ne (by omega),
          List.getElem?_set_ne (by omega)]
      · exact ih (by omega) (by rw [List.length_set]; omega)

/-- A subtree of `2 ^ k` leaves from `first` on. -/
structure Covers (leaves k node first : Nat) : Prop where
  place : 2 ^ k * node = leaves + first
  inside : first + 2 ^ k ≤ leaves

theorem Covers.root (k : Nat) : Covers (2 ^ k) k 1 0 :=
  ⟨by rw [Nat.mul_one, Nat.add_zero], by rw [Nat.zero_add]⟩

theorem Covers.left (covers : Covers leaves (k + 1) node first) :
    Covers leaves k (2 * node) first := by
  obtain ⟨place, inside⟩ := covers
  rw [pow_succ] at place inside
  exact ⟨by rw [← place]; ring, by omega⟩

theorem Covers.right (covers : Covers leaves (k + 1) node first) :
    Covers leaves k (2 * node + 1) (first + 2 ^ k) := by
  obtain ⟨place, inside⟩ := covers
  rw [pow_succ] at place inside
  have doubled : 2 ^ k * (2 * node + 1) = 2 ^ k * 2 * node + 2 ^ k := by ring
  exact ⟨by rw [doubled, place, Nat.add_assoc], by omega⟩

theorem Covers.inner (covers : Covers leaves (k + 1) node first) : 0 < node ∧ node < leaves := by
  obtain ⟨place, inside⟩ := covers
  have positive : 0 < 2 ^ k := Nat.two_pow_pos k
  rw [pow_succ] at place inside
  constructor
  · by_contra root
    have zero : node = 0 := by omega
    rw [zero, Nat.mul_zero] at place
    omega
  · by_contra large
    have least : 2 ^ k * 2 * leaves ≤ 2 ^ k * 2 * node := Nat.mul_le_mul_left _ (by omega)
    have twice : 2 * leaves ≤ 2 ^ k * 2 * leaves := Nat.mul_le_mul_right _ (by omega)
    omega

theorem length_build (values : List Nat) : (build values).2.length = 2 * (build values).1 := by
  obtain ⟨k, leaves, enough⟩ := leavesFor_spec values.length
  rw [build, length_fill, leaves]
  simp only [List.length_append, List.length_replicate]
  omega

/-- The leaves hold the values, and nothing behind them. -/
theorem build_leaf {place : Nat} (inside : place < (build values).1) :
    (build values).2[(build values).1 + place]? = some (values.getD place 0) := by
  obtain ⟨k, leaves, enough⟩ := leavesFor_spec values.length
  have positive := Nat.two_pow_pos k
  rw [build, leaves] at inside ⊢
  rw [fill_behind _ (by omega), List.append_assoc,
    List.getElem?_append_right (by rw [List.length_replicate]; omega), List.length_replicate,
    Nat.add_sub_cancel_left]
  by_cases real : place < values.length
  · rw [List.getElem?_append_left real, List.getD_eq_getElem?_getD,
      List.getElem?_eq_getElem real]
    rfl
  · rw [List.getElem?_append_right (by omega), List.getElem?_replicate, if_pos (by omega),
      List.getD_eq_default _ _ (by omega)]

theorem build_inner (inner : 0 < node) (below : node < (build values).1) :
    (build values).2[node]? = some (max ((build values).2.getD (2 * node) 0)
      ((build values).2.getD (2 * node + 1) 0)) := by
  have length := length_build values
  rw [build, length_fill] at length
  exact fill_spec inner (by rw [build] at below; omega) (by
    rw [build] at below
    omega)

/-- **A node holds the largest value under it.** -/
theorem build_node (covers : Covers (build values).1 k node first) :
    ∃ top, (build values).2[node]? = some top ∧ ∀ lo, lo ≤ top ↔
      ∃ place, first ≤ place ∧ place < first + 2 ^ k ∧ lo ≤ values.getD place 0 := by
  induction k generalizing node first with
  | zero =>
      obtain ⟨place, inside⟩ := covers
      rw [pow_zero, Nat.one_mul] at place
      rw [pow_zero] at inside ⊢
      refine ⟨values.getD first 0, ?_, ?_⟩
      · rw [place]
        exact build_leaf (by omega)
      · intro lo
        constructor
        · intro reaches
          exact ⟨first, Nat.le_refl _, Nat.lt_succ_self _, reaches⟩
        · rintro ⟨other, above, below, reaches⟩
          have same : other = first := by omega
          rw [← same]
          exact reaches
  | succ k ih =>
      obtain ⟨positive, below⟩ := covers.inner
      obtain ⟨left, at_left, left_iff⟩ := ih covers.left
      obtain ⟨right, at_right, right_iff⟩ := ih covers.right
      have filled : (build values).2[node]? = some (max left right) := by
        rw [build_inner positive below, List.getD_eq_getElem?_getD, at_left,
          List.getD_eq_getElem?_getD, at_right]
        rfl
      refine ⟨max left right, filled, ?_⟩
      intro lo
      rw [le_max_iff, left_iff, right_iff, pow_succ]
      constructor
      · rintro (⟨place, above, below, reaches⟩ | ⟨place, above, below, reaches⟩)
        · exact ⟨place, above, by omega, reaches⟩
        · exact ⟨place, by omega, by omega, reaches⟩
      · rintro ⟨place, above, below, reaches⟩
        by_cases half : place < first + 2 ^ k
        · exact Or.inl ⟨place, above, half, reaches⟩
        · exact Or.inr ⟨place, by omega, by omega, reaches⟩

/-! ### What the search finds -/

/-- The places of a row of leaves that are below `upto` and reach `lo`. -/
def found (values : List Nat) (upto lo first count : Nat) : List Nat :=
  (List.range' first count).filter fun place => place < upto ∧ lo ≤ values.getD place 0

/-- A frame of the stack: a node with all its leaves. -/
def Frame.Valid (leaves : Nat) (frame : Frame) : Prop :=
  ∃ k, frame.2.2 = 2 ^ k ∧ Covers leaves k frame.1 frame.2.1

/-- How many nodes the frames of a stack have. -/
def nodes (stack : List Frame) : Nat := (stack.map fun frame => 2 * frame.2.2 - 1).sum

@[simp] theorem nodes_cons (frame : Frame) (stack : List Frame) :
    nodes (frame :: stack) = 2 * frame.2.2 - 1 + nodes stack := rfl

theorem found_eq_nil {count : Nat}
    (none_here : ∀ place, first ≤ place → place < first + count → place < upto →
      ¬ lo ≤ values.getD place 0) : found values upto lo first count = [] := by
  rw [found, List.filter_eq_nil_iff]
  intro place member reaches
  rw [List.mem_range'_1] at member
  rw [decide_eq_true_eq] at reaches
  exact none_here place member.1 member.2 reaches.1 reaches.2

theorem found_one (below : first < upto) (reaches : lo ≤ values.getD first 0) :
    found values upto lo first 1 = [first] := by
  rw [found, List.range'_one, List.filter_cons_of_pos]
  · rfl
  · rw [decide_eq_true_eq]
    exact ⟨below, reaches⟩

theorem found_halves (values : List Nat) (upto lo first half : Nat) :
    found values upto lo first (half + half) =
      found values upto lo first half ++ found values upto lo (first + half) half := by
  rw [found, found, found, ← List.filter_append, List.range'_append_1]

/-- **The search finds the places under its stack, in order.**  By induction on the fuel, with the
nodes still to visit as its bound. -/
theorem walk_spec {fuel : Nat} {stack : List Frame}
    (valid : ∀ frame ∈ stack, Frame.Valid (build values).1 frame) (enough : nodes stack ≤ fuel) :
    walk (build values).2 upto lo fuel stack =
      some (stack.flatMap fun frame => found values upto lo frame.2.1 frame.2.2) := by
  induction fuel generalizing stack with
  | zero =>
      cases stack with
      | nil => rfl
      | cons frame stack =>
          obtain ⟨k, count, -⟩ := valid frame List.mem_cons_self
          have positive := Nat.two_pow_pos k
          rw [nodes_cons] at enough
          omega
  | succ fuel ih =>
      cases stack with
      | nil => rfl
      | cons frame stack =>
          obtain ⟨node, first, count⟩ := frame
          obtain ⟨k, width, covers⟩ := valid (node, first, count) List.mem_cons_self
          have positive := Nat.two_pow_pos k
          have others : ∀ frame ∈ stack, Frame.Valid (build values).1 frame :=
            fun frame member => valid frame (List.mem_cons_of_mem _ member)
          simp only at width covers
          subst width
          simp only [nodes_cons] at enough
          have rest := ih others (by omega)
          rw [walk, List.flatMap_cons]
          by_cases beyond : first ≥ upto
          · rw [if_pos beyond, rest, found_eq_nil, List.nil_append]
            intro place above _ below
            exact absurd (Nat.lt_of_le_of_lt above below) (Nat.not_lt.2 beyond)
          rw [if_neg beyond]
          obtain ⟨top, at_node, top_iff⟩ := build_node covers
          simp only [at_node]
          by_cases short : top < lo
          · rw [if_pos short, rest, found_eq_nil, List.nil_append]
            intro place above below _ reaches
            exact absurd ((top_iff lo).2 ⟨place, above, below, reaches⟩) (Nat.not_le.2 short)
          rw [if_neg short]
          cases k with
          | zero =>
              obtain ⟨place, above, below, reaches⟩ := (top_iff lo).1 (Nat.not_lt.1 short)
              rw [pow_zero] at below
              have same : place = first := by omega
              subst same
              rw [pow_zero, if_pos rfl, rest, found_one (Nat.not_le.1 beyond) reaches]
              rfl
          | succ k =>
              have halves : 2 ^ (k + 1) = 2 ^ k + 2 ^ k := by
                rw [pow_succ]
                omega
              have half : 2 ^ (k + 1) / 2 = 2 ^ k := by omega
              have large : 2 ^ (k + 1) ≠ 1 := by
                have positive' := Nat.two_pow_pos k
                omega
              have children : ∀ frame ∈ (2 * node, first, 2 ^ k) ::
                  (2 * node + 1, first + 2 ^ k, 2 ^ k) :: stack,
                  Frame.Valid (build values).1 frame := by
                intro frame member
                rcases List.mem_cons.1 member with rfl | member
                · exact ⟨k, rfl, covers.left⟩
                · rcases List.mem_cons.1 member with rfl | member
                  · exact ⟨k, rfl, covers.right⟩
                  · exact others frame member
              rw [if_neg large, half, ih children (by simp only [nodes_cons]; omega),
                List.flatMap_cons, List.flatMap_cons, halves, found_halves, List.append_assoc]

/-- **The search finds exactly the places below `upto` whose value reaches `lo`, in order.** -/
theorem search_spec (values : List Nat) (within : upto ≤ values.length) (lo : Nat) :
    search (build values) upto lo =
      some ((List.range upto).filter fun place => lo ≤ values.getD place 0) := by
  rw [search]
  by_cases nothing : upto = 0
  · rw [if_pos nothing, nothing]
    rfl
  · obtain ⟨k, leaves, enough⟩ := leavesFor_spec values.length
    have width : (build values).1 = 2 ^ k := leaves
    have root : ∀ frame ∈ [((1, 0, (build values).1) : Frame)],
        Frame.Valid (build values).1 frame := by
      intro frame member
      rw [List.mem_singleton.1 member, width]
      exact ⟨k, rfl, Covers.root k⟩
    rw [if_neg nothing, walk_spec root (by simp [nodes])]
    simp only [List.flatMap_cons, List.flatMap_nil, List.append_nil]
    have split : (build values).1 = upto + ((build values).1 - upto) := by omega
    rw [found, split, ← List.range'_append_1, List.filter_append, Nat.zero_add]
    have behind : (List.range' upto ((build values).1 - upto)).filter
        (fun place => place < upto ∧ lo ≤ values.getD place 0) = [] :=
      found_eq_nil fun place above _ below => absurd below (Nat.not_lt.2 above)
    rw [behind, List.append_nil, ← List.range_eq_range']
    refine congrArg some (List.filter_congr ?_)
    intro place member
    simp [List.mem_range.1 member]

/-- The places of a list that a test accepts name the elements it accepts. -/
theorem mapM_places {α : Type} (xs : List α) (value : α → Nat) (within : upto ≤ xs.length)
    (lo : Nat) : (((List.range upto).filter fun place => lo ≤ (xs.map value).getD place 0).mapM
      fun place => xs[place]?) = some ((xs.take upto).filter fun x => lo ≤ value x) := by
  induction upto with
  | zero => rfl
  | succ upto ih =>
      have inside : upto < xs.length := within
      rw [List.range_succ, List.filter_append, List.mapM_append, ih (Nat.le_of_lt inside),
        List.take_add_one, List.getElem?_eq_getElem inside, List.filter_append]
      by_cases reaches : lo ≤ value xs[upto]
      · simp [inside, reaches]
      · simp [inside, reaches]

/-- **The search over the values of a list's elements finds the first elements that reach `lo`.** -/
theorem search_entries {α : Type} (xs : List α) (value : α → Nat) (within : upto ≤ xs.length)
    (lo : Nat) :
    ((search (build (xs.map value)) upto lo).bind fun hits => hits.mapM fun place => xs[place]?) =
      some ((xs.take upto).filter fun x => lo ≤ value x) := by
  rw [search_spec (xs.map value) (by rw [List.length_map]; exact within) lo]
  exact mapM_places xs value within lo

end Bemtvi.MaxTree
