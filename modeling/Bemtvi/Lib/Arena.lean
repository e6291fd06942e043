/-
Module: Bemtvi.Lib.Arena
Purpose: Trees kept in an arena: a vector of nodes, each with its parent's index and its children's.
  A leaf is pushed at the end; a subtree is kept by collecting it from its top, sorting the indices
  and renumbering the links.  Both keep the arena well formed, and both loops end.
Trusted boundary: human-reviewed spec
Main exports: Node, parentOf, WellFormed, Below, push, subtree, compact, toward, push_wellFormed,
  subtree_spec, compact_wellFormed, toward_spec
-/
import Mathlib

namespace Bemtvi.Arena

/-- A node: its links, and what it holds. -/
structure Node (α : Type) where
  parent : Option Nat
  children : List Nat
  data : α
deriving Repr, DecidableEq

variable {α : Type}

/-- The parent of the node at an index. -/
def parentOf (nodes : List (Node α)) (i : Nat) : Option Nat :=
  nodes[i]?.bind (·.parent)

/-- The node at index 0 is the one root, every parent stands before its children, and `children` is
the inverse of `parent`, in creation order. -/
structure WellFormed (nodes : List (Node α)) : Prop where
  nonempty : 0 < nodes.length
  orphan : ∀ (i : Nat) (node : Node α), nodes[i]? = some node → (node.parent = none ↔ i = 0)
  parent_lt : ∀ i p, parentOf nodes i = some p → p < i
  children_iff : ∀ (i : Nat) (node : Node α), nodes[i]? = some node →
    ∀ c, c ∈ node.children ↔ parentOf nodes c = some i
  children_sorted : ∀ (i : Nat) (node : Node α), nodes[i]? = some node → node.children.Pairwise (· < ·)

/-- An index whose chain of parents passes through `top`. -/
inductive Below (nodes : List (Node α)) (top : Nat) : Nat → Prop
  | top : Below nodes top top
  | child {p c : Nat} (above : Below nodes top p) (link : parentOf nodes c = some p) :
      Below nodes top c

/-! ### Reading the links -/

variable {i p top j at_index : Nat} {node : Node α} {data : α} {stack : List Nat}

theorem parentOf_eq_some {nodes : List (Node α)} :
    parentOf nodes i = some p ↔ ∃ node, nodes[i]? = some node ∧ node.parent = some p := by
  unfold parentOf
  exact Option.bind_eq_some_iff

theorem lt_of_parentOf {nodes : List (Node α)} (link : parentOf nodes i = some p) :
    i < nodes.length := by
  rcases parentOf_eq_some.1 link with ⟨node, found, -⟩
  exact (List.getElem?_eq_some_iff.1 found).1

theorem WellFormed.child_lt {nodes : List (Node α)} (wf : WellFormed nodes) {c : Nat}
    (found : nodes[i]? = some node) (child : c ∈ node.children) : i < c :=
  wf.parent_lt c i ((wf.children_iff i node found c).1 child)

/-- Every node but the root has a parent. -/
theorem WellFormed.parentOf_isSome {nodes : List (Node α)} (wf : WellFormed nodes)
    (inside : i < nodes.length) (below_root : i ≠ 0) : ∃ p, parentOf nodes i = some p := by
  have found : nodes[i]? = some nodes[i] := List.getElem?_eq_getElem inside
  cases link : nodes[i].parent with
  | none => exact absurd ((wf.orphan i _ found).1 link) below_root
  | some p => exact ⟨p, parentOf_eq_some.2 ⟨_, found, link⟩⟩

theorem WellFormed.parentOf_root {nodes : List (Node α)} (wf : WellFormed nodes) :
    parentOf nodes 0 = none := by
  cases link : parentOf nodes 0 with
  | none => rfl
  | some p => exact absurd (wf.parent_lt 0 p link) (Nat.not_lt_zero p)

theorem Below.le {nodes : List (Node α)} (wf : WellFormed nodes) (below : Below nodes top i) :
    top ≤ i := by
  induction below with
  | top => exact Nat.le_refl top
  | child above link ih => exact Nat.le_trans ih (Nat.le_of_lt (wf.parent_lt _ _ link))

theorem Below.lt_length {nodes : List (Node α)} (inside : top < nodes.length)
    (below : Below nodes top i) : i < nodes.length := by
  cases below with
  | top => exact inside
  | child above link => exact lt_of_parentOf link

/-- Below the top, the chain goes on to a parent that is below the top too. -/
theorem Below.parent {nodes : List (Node α)} (below : Below nodes top i) (lower : i ≠ top) :
    ∃ p, parentOf nodes i = some p ∧ Below nodes top p := by
  cases below with
  | top => exact absurd rfl lower
  | child above link => exact ⟨_, link, above⟩

/-! ### What the nodes hold -/

/-- What the node at an index holds, changed. -/
def modifyData (nodes : List (Node α)) (i : Nat) (change : α → α) : List (Node α) :=
  nodes.modify i fun node => { node with data := change node.data }

theorem modifyData_cases {nodes : List (Node α)} {change : α → α}
    (found : (modifyData nodes i change)[j]? = some node) :
    ∃ old, nodes[j]? = some old ∧ node.parent = old.parent ∧ node.children = old.children ∧
      node.data = if i = j then change old.data else old.data := by
  unfold modifyData at found
  rw [List.getElem?_modify] at found
  rcases Option.map_eq_some_iff.1 found with ⟨old, was, same⟩
  subst same
  by_cases here : i = j
  · exact ⟨old, was, by simp [here], by simp [here], by simp [here]⟩
  · exact ⟨old, was, by simp [here], by simp [here], by simp [here]⟩

theorem modifyData_found {nodes : List (Node α)} (i : Nat) (change : α → α) {old : Node α}
    (was : nodes[j]? = some old) : ∃ node, (modifyData nodes i change)[j]? = some node ∧
      node.parent = old.parent ∧ node.data = if i = j then change old.data else old.data := by
  unfold modifyData
  rw [List.getElem?_modify, was]
  by_cases here : i = j
  · exact ⟨_, rfl, by simp [here], by simp [here]⟩
  · exact ⟨_, rfl, by simp [here], by simp [here]⟩

theorem modifyData_length (nodes : List (Node α)) (i : Nat) (change : α → α) :
    (modifyData nodes i change).length = nodes.length :=
  List.length_modify _ _ _

theorem parentOf_modifyData {nodes : List (Node α)} {change : α → α} :
    parentOf (modifyData nodes i change) j = some p ↔ parentOf nodes j = some p := by
  rw [parentOf_eq_some, parentOf_eq_some]
  constructor
  · rintro ⟨node, found, link⟩
    rcases modifyData_cases found with ⟨old, was, parent, -, -⟩
    exact ⟨old, was, parent ▸ link⟩
  · rintro ⟨old, was, link⟩
    rcases modifyData_found i change was with ⟨node, found, parent, -⟩
    exact ⟨node, found, parent ▸ link⟩

/-- What the nodes hold does not matter to the links. -/
theorem modifyData_wellFormed {nodes : List (Node α)} (wf : WellFormed nodes) (i : Nat)
    (change : α → α) : WellFormed (modifyData nodes i change) where
  nonempty := by
    rw [modifyData_length]
    exact wf.nonempty
  orphan := by
    intro j node found
    rcases modifyData_cases found with ⟨old, was, parent, -, -⟩
    rw [parent]
    exact wf.orphan j old was
  parent_lt := by
    intro j p link
    exact wf.parent_lt j p (parentOf_modifyData.1 link)
  children_iff := by
    intro j node found c
    rcases modifyData_cases found with ⟨old, was, -, children, -⟩
    rw [children, parentOf_modifyData]
    exact wf.children_iff j old was c
  children_sorted := by
    intro j node found
    rcases modifyData_cases found with ⟨old, was, -, children, -⟩
    rw [children]
    exact wf.children_sorted j old was

/-! ### A leaf at the end -/

/-- A new last node, the newest child of the node at `at_index`. -/
def push (nodes : List (Node α)) (at_index : Nat) (data : α) : List (Node α) :=
  nodes.modify at_index (fun node => { node with children := node.children ++ [nodes.length] }) ++
    [{ parent := some at_index, children := [], data := data }]

theorem push_length (nodes : List (Node α)) (at_index : Nat) (data : α) :
    (push nodes at_index data).length = nodes.length + 1 := by
  simp [push]

theorem push_old {nodes : List (Node α)} (inside : i < nodes.length) :
    (push nodes at_index data)[i]? = nodes[i]?.map fun node =>
      if at_index = i then { node with children := node.children ++ [nodes.length] } else node := by
  unfold push
  rw [List.getElem?_append_left (by simpa using inside), List.getElem?_modify]
  cases nodes[i]? with
  | none => rfl
  | some node => by_cases same : at_index = i <;> simp [same]

theorem push_new (nodes : List (Node α)) (at_index : Nat) (data : α) :
    (push nodes at_index data)[nodes.length]? =
      some { parent := some at_index, children := [], data := data } := by
  unfold push
  rw [List.getElem?_append_right (by simp)]
  simp

/-- A node of the pushed arena is an old one, but for the new child, or the new one. -/
theorem push_cases {nodes : List (Node α)} (found : (push nodes at_index data)[i]? = some node) :
    (i < nodes.length ∧ ∃ old, nodes[i]? = some old ∧ node.parent = old.parent ∧
        node.data = old.data ∧
        node.children = if at_index = i then old.children ++ [nodes.length] else old.children) ∨
      i = nodes.length ∧ node = { parent := some at_index, children := [], data := data } := by
  have bound : i < (push nodes at_index data).length := (List.getElem?_eq_some_iff.1 found).1
  rw [push_length] at bound
  rcases Nat.lt_succ_iff_lt_or_eq.1 bound with inside | last
  · apply Or.inl
    refine ⟨inside, nodes[i], List.getElem?_eq_getElem inside, ?_⟩
    rw [push_old inside, List.getElem?_eq_getElem inside, Option.map_some,
      Option.some.injEq] at found
    subst found
    by_cases same : at_index = i <;> simp [same]
  · apply Or.inr
    subst last
    rw [push_new, Option.some.injEq] at found
    exact ⟨rfl, found.symm⟩

theorem parentOf_push_old {nodes : List (Node α)} (inside : i < nodes.length) :
    parentOf (push nodes at_index data) i = parentOf nodes i := by
  unfold parentOf
  rw [push_old inside]
  cases nodes[i]? with
  | none => rfl
  | some node => by_cases same : at_index = i <;> simp [same]

theorem parentOf_push_new (nodes : List (Node α)) (at_index : Nat) (data : α) :
    parentOf (push nodes at_index data) nodes.length = some at_index := by
  unfold parentOf
  rw [push_new]
  rfl

/-- The links of the pushed arena: the old ones, and the new leaf's. -/
theorem parentOf_push {nodes : List (Node α)} : parentOf (push nodes at_index data) i = some p ↔
      parentOf nodes i = some p ∨ (i = nodes.length ∧ p = at_index) := by
  constructor
  · intro link
    have bound := lt_of_parentOf link
    rw [push_length] at bound
    rcases Nat.lt_succ_iff_lt_or_eq.1 bound with inside | last
    · exact Or.inl (parentOf_push_old inside ▸ link)
    · subst last
      rw [parentOf_push_new, Option.some.injEq] at link
      exact Or.inr ⟨rfl, link.symm⟩
  · intro either
    rcases either with link | ⟨last, same⟩
    · rw [parentOf_push_old (lt_of_parentOf link)]
      exact link
    · subst last same
      exact parentOf_push_new nodes _ data

/-- **Pushing a leaf** under a node of the arena keeps it well formed. -/
theorem push_wellFormed {nodes : List (Node α)} (wf : WellFormed nodes)
    (inside : at_index < nodes.length) (data : α) : WellFormed (push nodes at_index data) where
  nonempty := by
    rw [push_length]
    exact Nat.succ_pos _
  orphan := by
    intro i node found
    rcases push_cases found with ⟨-, old, was, parent, -, -⟩ | ⟨last, same⟩
    · rw [parent]
      exact wf.orphan i old was
    · subst last same
      constructor
      · intro absent
        cases absent
      · intro empty
        exact absurd wf.nonempty (empty ▸ Nat.lt_irrefl _)
  parent_lt := by
    intro i p link
    rcases parentOf_push.1 link with old | ⟨last, same⟩
    · exact wf.parent_lt i p old
    · subst last same
      exact inside
  children_iff := by
    intro i node found c
    rcases push_cases found with ⟨bound, old, was, -, -, children⟩ | ⟨last, same⟩
    · rw [children, parentOf_push]
      by_cases here : at_index = i
      · rw [if_pos here, List.mem_append, List.mem_singleton, wf.children_iff i old was c]
        simp [here]
      · rw [if_neg here, wf.children_iff i old was c]
        simp [Ne.symm here]
    · subst last same
      rw [parentOf_push]
      constructor
      · intro child
        cases child
      · intro either
        rcases either with link | ⟨-, same⟩
        · have lower := wf.parent_lt c _ link
          exact absurd (lt_of_parentOf link) (Nat.lt_asymm lower)
        · exact absurd inside (same ▸ Nat.lt_irrefl _)
  children_sorted := by
    intro i node found
    rcases push_cases found with ⟨bound, old, was, -, -, children⟩ | ⟨last, same⟩
    · rw [children]
      by_cases here : at_index = i
      · rw [if_pos here, List.pairwise_append]
        refine ⟨wf.children_sorted i old was, List.pairwise_singleton _ _, ?_⟩
        intro c child last same
        rw [List.mem_singleton.1 same]
        exact lt_of_parentOf ((wf.children_iff i old was c).1 child)
      · rw [if_neg here]
        exact wf.children_sorted i old was
    · subst same
      exact List.Pairwise.nil

/-! ### Collecting a subtree -/

/-- Pop an index, keep it and stack its children (the last on top), until the stack is empty; `none`
out of turns or at an index with no node. -/
def collect (nodes : List (Node α)) : Nat → List Nat → List Nat → Option (List Nat)
  | _, [], keep => some keep
  | 0, _ :: _, _ => none
  | turns + 1, i :: stack, keep =>
      match nodes[i]? with
      | some node => collect nodes turns (node.children.reverse ++ stack) (keep ++ [i])
      | none => none

/-- The indices of the subtree at `top`, in order. -/
def subtree (nodes : List (Node α)) (top : Nat) : Option (List Nat) :=
  (collect nodes nodes.length [top] []).map (List.insertionSort (· ≤ ·))

/-- What the walk holds to: it meets no index twice, only indices below the top, each after its
parent, and it owes the children of all it kept. -/
structure Collecting (nodes : List (Node α)) (top : Nat) (stack keep : List Nat) : Prop where
  nodup : (keep ++ stack).Nodup
  below : ∀ i ∈ keep ++ stack, Below nodes top i
  top_met : top ∈ keep ++ stack
  closed : ∀ i ∈ keep, ∀ c, parentOf nodes c = some i → c ∈ keep ++ stack
  after : ∀ i ∈ keep ++ stack, i ≠ top → ∃ p ∈ keep, parentOf nodes i = some p

theorem Collecting.start {nodes : List (Node α)} (top : Nat) :
    Collecting nodes top [top] [] where
  nodup := List.nodup_singleton top
  below := by
    intro i member
    rw [List.nil_append, List.mem_singleton] at member
    subst member
    exact .top
  top_met := List.mem_singleton_self top
  closed := by
    intro i member
    cases member
  after := by
    intro i member lower
    exact absurd (List.mem_singleton.1 member) lower

/-- One turn of the walk. -/
theorem Collecting.turn {nodes : List (Node α)} (wf : WellFormed nodes) {keep : List Nat}
    (found : nodes[i]? = some node) (walk : Collecting nodes top (i :: stack) keep) :
    Collecting nodes top (node.children.reverse ++ stack) (keep ++ [i]) := by
  have popped : Below nodes top i := walk.below i (by simp)
  -- A child of the popped index was not met before: its parent would have been kept.
  have fresh : ∀ c ∈ node.children, c ∉ keep ++ i :: stack := by
    intro c child met
    have link := (wf.children_iff i node found c).1 child
    have lower : c ≠ top := by
      intro same
      have above := Below.le wf popped
      exact absurd (wf.child_lt found child) (same ▸ Nat.not_lt.2 above)
    rcases walk.after c met lower with ⟨p, kept, link'⟩
    rw [link, Option.some.injEq] at link'
    subst link'
    have disjoint := (List.nodup_append.1 walk.nodup).2.2
    exact disjoint _ kept _ List.mem_cons_self rfl
  have members : ∀ j, j ∈ (keep ++ [i]) ++ (node.children.reverse ++ stack) ↔
      j ∈ keep ++ i :: stack ∨ j ∈ node.children := by
    intro j
    simp only [List.mem_append, List.mem_reverse, List.mem_cons]
    tauto
  constructor
  · have whole : ((keep ++ i :: stack) ++ node.children.reverse).Nodup := by
      apply List.nodup_append.2
      refine ⟨walk.nodup, ?_, ?_⟩
      · apply List.nodup_reverse.2
        exact (wf.children_sorted i node found).imp (fun smaller => Nat.ne_of_lt smaller)
      · intro j met c child same
        subst same
        exact fresh j (List.mem_reverse.1 child) met
    refine whole.perm ?_
    simp only [List.append_assoc, List.cons_append, List.nil_append]
    apply List.Perm.append_left
    apply List.Perm.cons
    exact List.perm_append_comm
  · intro j member
    rcases (members j).1 member with met | child
    · exact walk.below j met
    · exact .child popped ((wf.children_iff i node found j).1 child)
  · exact (members top).2 (Or.inl walk.top_met)
  · intro j member c link
    apply (members c).2
    rcases List.mem_append.1 member with kept | last
    · exact Or.inl (walk.closed j kept c link)
    · rw [List.mem_singleton.1 last] at link
      exact Or.inr ((wf.children_iff i node found c).2 link)
  · intro j member lower
    rcases (members j).1 member with met | child
    · rcases walk.after j met lower with ⟨p, kept, link⟩
      exact ⟨p, List.mem_append_left _ kept, link⟩
    · exact ⟨i, by simp, (wf.children_iff i node found j).1 child⟩

/-- The walk never holds more indices than there are nodes. -/
theorem Collecting.length_le {nodes : List (Node α)} (inside : top < nodes.length)
    {keep : List Nat} (walk : Collecting nodes top stack keep) :
    (keep ++ stack).length ≤ nodes.length := by
  have bounded : (keep ++ stack) ⊆ List.range nodes.length := by
    intro i member
    exact List.mem_range.2 ((walk.below i member).lt_length inside)
  have shorter := (walk.nodup.subperm bounded).length_le
  rwa [List.length_range] at shorter

/-- When the stack runs empty the whole subtree is kept. -/
theorem Collecting.finished {nodes : List (Node α)} {keep : List Nat}
    (walk : Collecting nodes top [] keep) : ∀ i, i ∈ keep ↔ Below nodes top i := by
  intro i
  constructor
  · intro kept
    exact walk.below i (by simpa using kept)
  · intro below
    induction below with
    | top => simpa using walk.top_met
    | child above link ih => simpa using walk.closed _ ih _ link

/-- The walk ends, with turns enough for the nodes not kept yet. -/
theorem collect_spec {nodes : List (Node α)} (wf : WellFormed nodes) (inside : top < nodes.length)
    (turns : Nat) {keep : List Nat} (walk : Collecting nodes top stack keep)
    (enough : nodes.length ≤ turns + keep.length) :
    ∃ all, collect nodes turns stack keep = some all ∧ Collecting nodes top [] all := by
  induction turns generalizing stack keep with
  | zero =>
      cases stack with
      | nil => exact ⟨keep, rfl, walk⟩
      | cons i stack =>
          have bound := walk.length_le inside
          rw [List.length_append, List.length_cons] at bound
          omega
  | succ turns ih =>
      cases stack with
      | nil => exact ⟨keep, rfl, walk⟩
      | cons i stack =>
          have bound : i < nodes.length := (walk.below i (by simp)).lt_length inside
          have found := List.getElem?_eq_getElem bound
          rw [collect, found]
          apply ih (walk.turn wf found)
          rw [List.length_append, List.length_singleton]
          omega

/-- **The subtree** is found, in order, and is everything below its top. -/
theorem subtree_spec {nodes : List (Node α)} (wf : WellFormed nodes) (inside : top < nodes.length) :
    ∃ keep, subtree nodes top = some keep ∧ keep.Pairwise (· < ·) ∧
      ∀ i, i ∈ keep ↔ Below nodes top i := by
  rcases collect_spec wf inside nodes.length (.start top) (Nat.le_add_right _ _) with
    ⟨all, collected, walk⟩
  refine ⟨all.insertionSort (· ≤ ·), ?_, ?_, ?_⟩
  · rw [subtree, collected]
    rfl
  · have distinct : all.Nodup := by simpa using walk.nodup
    have sorted := List.pairwise_insertionSort (· ≤ ·) all
    have nodup := (List.perm_insertionSort (· ≤ ·) all).nodup_iff.2 distinct
    exact sorted.imp₂ (fun _ _ le ne => Nat.lt_of_le_of_ne le ne) nodup
  · intro i
    rw [List.mem_insertionSort]
    exact walk.finished i

/-! ### Renumbering -/

/-- The new index of a kept one. -/
def slot (keep : List Nat) (i : Nat) : Option Nat := keep.idxOf? i

/-- Keep the nodes at `keep`, and renumber their links. -/
def compact (nodes : List (Node α)) (keep : List Nat) : List (Node α) :=
  keep.filterMap fun i => nodes[i]?.map fun node =>
    { node with
      parent := node.parent.bind (slot keep)
      children := node.children.filterMap (slot keep) }

theorem slot_eq_some {keep : List Nat} (sorted : keep.Pairwise (· < ·)) :
    slot keep i = some j ↔ keep[j]? = some i := by
  have distinct : keep.Nodup := sorted.imp fun smaller => Nat.ne_of_lt smaller
  unfold slot
  rw [List.idxOf?_eq_some_iff]
  constructor
  · rintro ⟨bound, same, -⟩
    rw [List.getElem?_eq_getElem bound, same]
  · intro found
    rcases List.getElem?_eq_some_iff.1 found with ⟨bound, same⟩
    refine ⟨bound, same, ?_⟩
    intro k smaller
    rw [← same]
    intro equal
    exact absurd ((distinct.getElem_inj_iff).1 equal) (Nat.ne_of_lt smaller)

/-- Two kept indices are in the order of their places. -/
theorem sorted_getElem? {keep : List Nat} (sorted : keep.Pairwise (· < ·)) {k a b : Nat}
    (first : keep[j]? = some a) (second : keep[k]? = some b) : a < b ↔ j < k := by
  rcases List.getElem?_eq_some_iff.1 first with ⟨bound, same⟩
  rcases List.getElem?_eq_some_iff.1 second with ⟨bound', same'⟩
  have forward := List.pairwise_iff_getElem.1 sorted
  subst same same'
  rcases Nat.lt_trichotomy j k with lt | eq | gt
  · exact iff_of_true (forward j k bound bound' lt) lt
  · subst eq
    exact iff_of_false (Nat.lt_irrefl _) (Nat.lt_irrefl _)
  · exact iff_of_false (Nat.lt_asymm (forward k j bound' bound gt)) (Nat.lt_asymm gt)

theorem getElem?_filterMap_of_some {β γ : Type} (f : β → Option γ) (xs : List β)
    (total : ∀ x ∈ xs, (f x).isSome) (j : Nat) : (xs.filterMap f)[j]? = xs[j]?.bind f := by
  induction xs generalizing j with
  | nil => rfl
  | cons x xs ih =>
      rcases Option.isSome_iff_exists.1 (total x List.mem_cons_self) with ⟨y, image⟩
      rw [List.filterMap_cons_some image]
      cases j with
      | zero => simp [image]
      | succ j =>
          rw [List.getElem?_cons_succ, List.getElem?_cons_succ]
          exact ih (fun x' member => total x' (List.mem_cons_of_mem x member)) j

section Compact

variable {nodes : List (Node α)} {keep : List Nat}

/-- The node at a new index. -/
theorem compact_getElem? (inside : ∀ i ∈ keep, i < nodes.length) (j : Nat) :
    (compact nodes keep)[j]? = keep[j]?.bind fun i => nodes[i]?.map fun node =>
      { node with
        parent := node.parent.bind (slot keep)
        children := node.children.filterMap (slot keep) } := by
  unfold compact
  apply getElem?_filterMap_of_some
  intro i kept
  rw [Option.isSome_map, List.getElem?_eq_getElem (inside i kept)]
  rfl

variable {j : Nat}

/-- Where a node of the compacted arena comes from. -/
theorem compact_cases (inside : ∀ i ∈ keep, i < nodes.length) {node : Node α}
    (found : (compact nodes keep)[j]? = some node) :
    ∃ i old, keep[j]? = some i ∧ nodes[i]? = some old ∧ node.data = old.data ∧
      node.parent = old.parent.bind (slot keep) ∧
      node.children = old.children.filterMap (slot keep) := by
  rw [compact_getElem? inside, Option.bind_eq_some_iff] at found
  rcases found with ⟨i, kept, mapped⟩
  rcases Option.map_eq_some_iff.1 mapped with ⟨old, was, same⟩
  subst same
  exact ⟨i, old, kept, was, rfl, rfl, rfl⟩

/-- A kept node stands at its slot. -/
theorem compact_kept (inside : ∀ i ∈ keep, i < nodes.length) {i : Nat} {old : Node α}
    (kept : keep[j]? = some i) (was : nodes[i]? = some old) :
    ∃ node, (compact nodes keep)[j]? = some node ∧ node.data = old.data := by
  rw [compact_getElem? inside, kept, Option.bind_some, was]
  exact ⟨_, rfl, rfl⟩

/-- The links of the compacted arena are the links between kept nodes. -/
theorem parentOf_compact (sorted : keep.Pairwise (· < ·)) (inside : ∀ i ∈ keep, i < nodes.length)
    {k : Nat} : parentOf (compact nodes keep) j = some k ↔
      ∃ i p, keep[j]? = some i ∧ keep[k]? = some p ∧ parentOf nodes i = some p := by
  rw [parentOf_eq_some]
  constructor
  · rintro ⟨node, found, link⟩
    rcases compact_cases inside found with ⟨i, old, kept, was, -, parent, -⟩
    rw [parent, Option.bind_eq_some_iff] at link
    rcases link with ⟨p, above, moved⟩
    exact ⟨i, p, kept, (slot_eq_some sorted).1 moved, parentOf_eq_some.2 ⟨old, was, above⟩⟩
  · rintro ⟨i, p, kept, kept', link⟩
    rcases parentOf_eq_some.1 link with ⟨old, was, above⟩
    rw [compact_getElem? inside, kept, Option.bind_some, was]
    refine ⟨_, rfl, ?_⟩
    show old.parent.bind (slot keep) = some k
    rw [above, Option.bind_some]
    exact (slot_eq_some sorted).2 kept'

/-- **Keeping a subtree** keeps the arena well formed. -/
theorem compact_wellFormed (wf : WellFormed nodes) {top : Nat} (top_inside : top < nodes.length)
    (sorted : keep.Pairwise (· < ·)) (subtree : ∀ i, i ∈ keep ↔ Below nodes top i) :
    WellFormed (compact nodes keep) := by
  have inside : ∀ i ∈ keep, i < nodes.length := by
    intro i kept
    exact ((subtree i).1 kept).lt_length top_inside
  have first : keep[0]? = some top := by
    rcases List.getElem?_of_mem ((subtree top).2 .top) with ⟨j, found⟩
    have bound : 0 < keep.length :=
      Nat.lt_of_le_of_lt (Nat.zero_le j) (List.getElem?_eq_some_iff.1 found).1
    have head := List.getElem?_eq_getElem bound
    have above := Below.le wf ((subtree keep[0]).1 (List.getElem_mem bound))
    have not_after := (sorted_getElem? sorted found head).not.2 (Nat.not_lt_zero j)
    rw [head, Nat.le_antisymm (Nat.not_lt.1 not_after) above]
  constructor
  · have found : (compact nodes keep)[0]? ≠ none := by
      rw [compact_getElem? inside, first, Option.bind_some,
        List.getElem?_eq_getElem top_inside]
      exact Option.some_ne_none _
    exact List.length_pos_iff.2 fun empty => found (by rw [empty]; rfl)
  · intro j node found
    rcases compact_cases inside found with ⟨i, old, kept, was, -, parent, -⟩
    rw [parent]
    constructor
    · intro orphaned
      by_cases lower : i = top
      · subst lower
        have same := (slot_eq_some sorted).2 kept
        rw [(slot_eq_some sorted).2 first, Option.some.injEq] at same
        exact same.symm
      · -- Below the top the parent is kept as well.
        rcases ((subtree i).1 (List.mem_of_getElem? kept)).parent lower with ⟨p, link, above⟩
        rcases parentOf_eq_some.1 link with ⟨old', was', link'⟩
        rw [was, Option.some.injEq] at was'
        subst was'
        rcases List.getElem?_of_mem ((subtree p).2 above) with ⟨k, kept'⟩
        rw [link', Option.bind_some, (slot_eq_some sorted).2 kept'] at orphaned
        cases orphaned
    · intro front
      subst front
      rw [first, Option.some.injEq] at kept
      subst kept
      cases above : old.parent with
      | none => rfl
      | some p =>
          rw [Option.bind_some]
          cases moved : slot keep p with
          | none => rfl
          | some k =>
              have kept' := (slot_eq_some sorted).1 moved
              have lower := Below.le wf ((subtree p).1 (List.mem_of_getElem? kept'))
              have link := wf.parent_lt top p (parentOf_eq_some.2 ⟨old, was, above⟩)
              exact absurd link (Nat.not_lt.2 lower)
  · intro j k link
    rcases (parentOf_compact sorted inside).1 link with ⟨i, p, kept, kept', link'⟩
    exact (sorted_getElem? sorted kept' kept).1 (wf.parent_lt i p link')
  · intro j node found c
    rcases compact_cases inside found with ⟨i, old, kept, was, -, -, children⟩
    rw [children, parentOf_compact sorted inside, List.mem_filterMap]
    constructor
    · rintro ⟨b, child, moved⟩
      exact ⟨b, i, (slot_eq_some sorted).1 moved, kept, (wf.children_iff i old was b).1 child⟩
    · rintro ⟨b, p, moved, kept', link⟩
      rw [kept, Option.some.injEq] at kept'
      subst kept'
      exact ⟨b, (wf.children_iff _ old was b).2 link, (slot_eq_some sorted).2 moved⟩
  · intro j node found
    rcases compact_cases inside found with ⟨i, old, kept, was, -, -, children⟩
    rw [children]
    apply (wf.children_sorted i old was).filterMap
    intro a b smaller a' moved b' moved'
    exact (sorted_getElem? sorted ((slot_eq_some sorted).1 moved)
      ((slot_eq_some sorted).1 moved')).1 smaller

/-- The compacted arena has one node for each kept index. -/
theorem compact_length (inside : ∀ i ∈ keep, i < nodes.length) :
    (compact nodes keep).length = keep.length := by
  apply List.filterMap_length_eq_length.2
  intro i kept
  rw [Option.isSome_map, List.getElem?_eq_getElem (inside i kept)]
  rfl

end Compact

/-! ### The way up -/

/-- From `i` up, the index right below `from_index`; `none` when the chain misses it. -/
def toward (nodes : List (Node α)) (from_index : Nat) : Nat → Nat → Option Nat
  | 0, _ => none
  | turns + 1, i =>
      match parentOf nodes i with
      | none => none
      | some p => if p = from_index then some i else toward nodes from_index turns p

/-- **The way up from below the root** ends at a child of the root. -/
theorem toward_spec {nodes : List (Node α)} (wf : WellFormed nodes) {turns : Nat}
    (inside : i < nodes.length) (lower : i ≠ 0) (enough : i < turns) :
    ∃ top, toward nodes 0 turns i = some top ∧ parentOf nodes top = some 0 ∧
      Below nodes top i := by
  induction turns generalizing i with
  | zero => exact absurd enough (Nat.not_lt_zero i)
  | succ turns ih =>
      rcases wf.parentOf_isSome inside lower with ⟨p, link⟩
      rw [toward, link]
      by_cases root : p = 0
      · subst root
        exact ⟨i, by simp, link, .top⟩
      · have above := wf.parent_lt i p link
        rcases ih (Nat.lt_trans above inside) root (by omega) with ⟨top, found, child, below⟩
        refine ⟨top, ?_, child, .child below link⟩
        simp only [if_neg root]
        exact found

theorem toward_root {nodes : List (Node α)} (wf : WellFormed nodes) (turns : Nat) :
    toward nodes 0 turns 0 = none := by
  cases turns with
  | zero => rfl
  | succ turns => rw [toward, wf.parentOf_root]

end Bemtvi.Arena
