/-
Module: Bemtvi.Lib.Spines
Purpose: A tree kept in an arena, walked as nested spines: a node's first child leads, the other
  children come behind it, and each brings its own descendants last.  From the root the walk meets
  every other node once.
Trusted boundary: human-reviewed spec
Main exports: childrenOf, depth, siblings, spine, depth_child, depth_push, branch_unique,
  mem_spine, spine_nodup, spine_root
-/
import Bemtvi.Lib.Arena

namespace Bemtvi.Arena

variable {α : Type}

/-! ### Children and depth -/

/-- The children of the node at an index. -/
def childrenOf (nodes : List (Node α)) (i : Nat) : List Nat :=
  (nodes[i]?.map (·.children)).getD []

variable {c i turns x : Nat} {nodes : List (Node α)} {cs : List Nat} {descend : Nat → List Nat}

theorem WellFormed.mem_childrenOf (wf : WellFormed nodes) :
    c ∈ childrenOf nodes i ↔ parentOf nodes c = some i := by
  unfold childrenOf
  cases found : nodes[i]? with
  | some node => exact wf.children_iff i node found c
  | none =>
      refine ⟨fun absent => absurd absent List.not_mem_nil, ?_⟩
      intro link
      have above := wf.parent_lt c i link
      have inside := lt_of_parentOf link
      exact absurd (List.getElem?_eq_none_iff.1 found) (by omega)

theorem WellFormed.childrenOf_nodup (wf : WellFormed nodes) (i : Nat) :
    (childrenOf nodes i).Nodup := by
  unfold childrenOf
  cases found : nodes[i]? with
  | some node => exact (wf.children_sorted i node found).imp Nat.ne_of_lt
  | none => exact List.nodup_nil

/-- How many parents there are above an index, at most `turns`. -/
def depthFrom (nodes : List (Node α)) : Nat → Nat → Nat
  | 0, _ => 0
  | turns + 1, i =>
      match parentOf nodes i with
      | some p => depthFrom nodes turns p + 1
      | none => 0

/-- How many parents there are above an index. -/
def depth (nodes : List (Node α)) (i : Nat) : Nat := depthFrom nodes nodes.length i

/-- Turns enough to reach the root from an index all count the same. -/
theorem WellFormed.depthFrom_eq (wf : WellFormed nodes) {turns' : Nat} (enough : i ≤ turns)
    (enough' : i ≤ turns') : depthFrom nodes turns i = depthFrom nodes turns' i := by
  have at_root : ∀ turns, depthFrom nodes turns 0 = 0 := by
    intro turns
    cases turns with
    | zero => rfl
    | succ turns => rw [depthFrom, wf.parentOf_root]
  induction turns generalizing turns' i with
  | zero =>
      rw [Nat.le_zero.1 enough, at_root, at_root]
  | succ turns ih =>
      cases turns' with
      | zero => rw [Nat.le_zero.1 enough', at_root, at_root]
      | succ turns' =>
          rw [depthFrom, depthFrom]
          cases link : parentOf nodes i with
          | none => rfl
          | some p =>
              have above := wf.parent_lt i p link
              exact congrArg (· + 1) (ih (by omega) (by omega))

theorem WellFormed.depth_root (wf : WellFormed nodes) : depth nodes 0 = 0 := by
  rw [depth, wf.depthFrom_eq (Nat.zero_le _) (Nat.zero_le 0), depthFrom]

theorem WellFormed.depth_child (wf : WellFormed nodes) {p : Nat}
    (link : parentOf nodes c = some p) : depth nodes c = depth nodes p + 1 := by
  have inside := lt_of_parentOf link
  have above := wf.parent_lt c p link
  have deeper := wf.depthFrom_eq (Nat.le_of_lt inside) (Nat.le_succ_of_le (Nat.le_of_lt inside))
  rw [depth, deeper, depthFrom, link]
  rfl

/-! ### A leaf at the end -/

theorem childrenOf_push {at_index : Nat} (inside : at_index < nodes.length) (data : α) (i : Nat) :
    childrenOf (push nodes at_index data) i =
      childrenOf nodes i ++ if at_index = i then [nodes.length] else [] := by
  unfold childrenOf
  rcases Nat.lt_trichotomy i nodes.length with old | last | behind
  · rw [push_old old, List.getElem?_eq_getElem old]
    by_cases same : at_index = i <;> simp [same]
  · subst last
    rw [push_new, List.getElem?_eq_none (Nat.le_refl _), if_neg (Nat.ne_of_lt inside)]
    rfl
  · have past : (push nodes at_index data).length ≤ i := by
      rw [push_length]
      exact behind
    rw [List.getElem?_eq_none past, List.getElem?_eq_none (Nat.le_of_lt behind),
      if_neg (by omega)]
    rfl

theorem WellFormed.depth_push (wf : WellFormed nodes) {at_index : Nat}
    (inside : at_index < nodes.length) (data : α) (old : i < nodes.length) :
    depth (push nodes at_index data) i = depth nodes i := by
  have pushed := push_wellFormed wf inside data
  induction i using Nat.strong_induction_on with
  | _ i ih =>
      by_cases root : i = 0
      · rw [root, pushed.depth_root, wf.depth_root]
      · rcases wf.parentOf_isSome old root with ⟨p, link⟩
        have above := wf.parent_lt i p link
        rw [wf.depth_child link, pushed.depth_child (parentOf_push.2 (Or.inl link)),
          ih p above (Nat.lt_trans above old)]

/-! ### Branches -/

/-- Below a node there is nothing but the node, and what is below one of its children. -/
theorem Below.branch {top : Nat} (below : Below nodes top i) :
    i = top ∨ ∃ c, parentOf nodes c = some top ∧ Below nodes c i := by
  induction below with
  | top => exact Or.inl rfl
  | @child p c above link ih =>
      rcases ih with same | ⟨branch, first, deeper⟩
      · subst same
        exact Or.inr ⟨c, link, .top⟩
      · exact Or.inr ⟨branch, first, .child deeper link⟩

theorem Below.lift {top : Nat} (link : parentOf nodes c = some top) (below : Below nodes c i) :
    Below nodes top i := by
  induction below with
  | top => exact .child .top link
  | child above link' ih => exact .child ih link'

/-- A node lies below one child of its ancestor only. -/
theorem WellFormed.branch_unique (wf : WellFormed nodes) {p c' : Nat}
    (link : parentOf nodes c = some p) (link' : parentOf nodes c' = some p)
    (below : Below nodes c i) (below' : Below nodes c' i) : c = c' := by
  have apart : ∀ {c c'}, parentOf nodes c = some p → parentOf nodes c' = some p →
      Below nodes c' c → c = c' := by
    intro c c' link link' deeper
    by_contra other
    rcases deeper.parent other with ⟨q, up, deeper⟩
    rw [link, Option.some.injEq] at up
    subst up
    have above := wf.parent_lt c' p link'
    exact absurd (deeper.le wf) (Nat.not_le.2 above)
  induction below with
  | top => exact apart link link' below'
  | @child q i above up ih =>
      by_cases same : i = c'
      · subst same
        exact (apart link' link (.child above up)).symm
      · rcases below'.parent same with ⟨q', up', below''⟩
        rw [up, Option.some.injEq] at up'
        subst up'
        exact ih below''

/-! ### The walk -/

/-- A list of siblings as a spine: the first, the siblings behind it, its own descendants. -/
def siblings (descend : Nat → List Nat) : List Nat → List Nat
  | [] => []
  | c :: rest => c :: (siblings descend rest ++ descend c)

/-- The nodes below an index, as spines; `turns` bounds the depth of the walk. -/
def spine (nodes : List (Node α)) : Nat → Nat → List Nat
  | 0, _ => []
  | turns + 1, i => siblings (spine nodes turns) (childrenOf nodes i)

theorem mem_siblings : x ∈ siblings descend cs ↔ x ∈ cs ∨ ∃ c ∈ cs, x ∈ descend c := by
  induction cs with
  | nil => simp [siblings]
  | cons c rest ih =>
      rw [siblings, List.mem_cons, List.mem_append, ih, List.mem_cons]
      constructor
      · rintro (first | (later | ⟨c', later, deeper⟩) | deeper)
        · exact Or.inl (Or.inl first)
        · exact Or.inl (Or.inr later)
        · exact Or.inr ⟨c', List.mem_cons_of_mem c later, deeper⟩
        · exact Or.inr ⟨c, List.mem_cons_self, deeper⟩
      · rintro ((first | later) | ⟨c', member, deeper⟩)
        · exact Or.inl first
        · exact Or.inr (Or.inl (Or.inl later))
        · rcases List.mem_cons.1 member with same | later
          · exact Or.inr (Or.inr (same ▸ deeper))
          · exact Or.inr (Or.inl (Or.inr ⟨c', later, deeper⟩))

/-- Siblings that differ, with descendants that differ, make a walk without repetition. -/
theorem siblings_nodup (distinct : cs.Nodup) (each : ∀ c ∈ cs, (descend c).Nodup)
    (deeper : ∀ c ∈ cs, ∀ c' ∈ cs, c' ∉ descend c)
    (apart : ∀ c ∈ cs, ∀ c' ∈ cs, ∀ x, x ∈ descend c → x ∈ descend c' → c = c') :
    (siblings descend cs).Nodup := by
  induction cs with
  | nil => exact List.nodup_nil
  | cons c rest ih =>
      rcases List.nodup_cons.1 distinct with ⟨fresh, distinct⟩
      have later := fun x (member : x ∈ rest) => List.mem_cons_of_mem c member
      have here : c ∈ c :: rest := List.mem_cons_self
      rw [siblings, List.nodup_cons, List.nodup_append]
      refine ⟨?_, ?_, each c here, ?_⟩
      · rw [List.mem_append, mem_siblings]
        rintro ((member | ⟨c', member, below⟩) | below)
        · exact fresh member
        · exact deeper c' (later c' member) c here below
        · exact deeper c here c here below
      · apply ih distinct
        · exact fun c' member => each c' (later c' member)
        · exact fun a first b second => deeper a (later a first) b (later b second)
        · exact fun a first b second => apart a (later a first) b (later b second)
      · intro x behind y below same
        subst same
        rcases mem_siblings.1 behind with member | ⟨c', member, below'⟩
        · exact deeper c here x (later x member) below
        · have same := apart c here c' (later c' member) x below below'
          exact fresh (same ▸ member)

theorem WellFormed.below_of_mem_spine (wf : WellFormed nodes) (met : x ∈ spine nodes turns i) :
    Below nodes i x ∧ i < x := by
  induction turns generalizing i with
  | zero => exact absurd met List.not_mem_nil
  | succ turns ih =>
      rcases mem_siblings.1 met with child | ⟨c, child, deeper⟩
      · have link := wf.mem_childrenOf.1 child
        exact ⟨.child .top link, wf.parent_lt x i link⟩
      · have link := wf.mem_childrenOf.1 child
        rcases ih deeper with ⟨below, lower⟩
        exact ⟨below.lift link, Nat.lt_trans (wf.parent_lt c i link) lower⟩

/-- The walk meets what is below its index, with turns enough. -/
theorem WellFormed.mem_spine (wf : WellFormed nodes) (enough : nodes.length ≤ turns + i) :
    x ∈ spine nodes turns i ↔ Below nodes i x ∧ x ≠ i := by
  refine ⟨fun met => ⟨(wf.below_of_mem_spine met).1, Nat.ne_of_gt (wf.below_of_mem_spine met).2⟩, ?_⟩
  rintro ⟨below, other⟩
  induction turns generalizing i with
  | zero =>
      rcases below.branch with same | ⟨c, link, -⟩
      · exact absurd same other
      · have above := wf.parent_lt c i link
        have inside := lt_of_parentOf link
        omega
  | succ turns ih =>
      rcases below.branch with same | ⟨c, link, deeper⟩
      · exact absurd same other
      · have above := wf.parent_lt c i link
        apply mem_siblings.2
        by_cases same : x = c
        · exact Or.inl (wf.mem_childrenOf.2 (same ▸ link))
        · exact Or.inr ⟨c, wf.mem_childrenOf.2 link, ih (by omega) deeper same⟩

/-- Below a last node there is nothing. -/
theorem WellFormed.spine_last (wf : WellFormed nodes) (last : nodes.length ≤ i + 1)
    (inside : i < nodes.length) : spine nodes turns i = [] := by
  apply List.eq_nil_iff_forall_not_mem.2
  intro x met
  rcases wf.below_of_mem_spine met with ⟨below, lower⟩
  have bound := below.lt_length inside
  omega

/-- It meets nothing twice. -/
theorem WellFormed.spine_nodup (wf : WellFormed nodes) (turns i : Nat) :
    (spine nodes turns i).Nodup := by
  induction turns generalizing i with
  | zero => exact List.nodup_nil
  | succ turns ih =>
      apply siblings_nodup (wf.childrenOf_nodup i)
      · exact fun c _ => ih c
      · intro c child c' child' met
        have link := wf.mem_childrenOf.1 child
        have link' := wf.mem_childrenOf.1 child'
        rcases wf.below_of_mem_spine met with ⟨below, lower⟩
        exact absurd (wf.branch_unique link link' below .top) (Nat.ne_of_lt lower)
      · intro c child c' child' x met met'
        exact wf.branch_unique (wf.mem_childrenOf.1 child) (wf.mem_childrenOf.1 child')
          (wf.below_of_mem_spine met).1 (wf.below_of_mem_spine met').1

theorem WellFormed.below_root (wf : WellFormed nodes) (inside : i < nodes.length) :
    Below nodes 0 i := by
  induction i using Nat.strong_induction_on with
  | _ i ih =>
      by_cases root : i = 0
      · subst root
        exact .top
      · rcases wf.parentOf_isSome inside root with ⟨p, link⟩
        have above := wf.parent_lt i p link
        exact .child (ih p above (Nat.lt_trans above inside)) link

/-- **From the root the walk meets every other node once.** -/
theorem WellFormed.spine_root (wf : WellFormed nodes) (enough : nodes.length ≤ turns) :
    (spine nodes turns 0).Perm (List.range' 1 (nodes.length - 1)) := by
  apply (List.perm_ext_iff_of_nodup (wf.spine_nodup _ 0) List.nodup_range').2
  intro x
  rw [wf.mem_spine enough, List.mem_range'_1]
  have nonempty := wf.nonempty
  constructor
  · rintro ⟨below, other⟩
    have inside := below.lt_length nonempty
    omega
  · rintro ⟨positive, inside⟩
    exact ⟨wf.below_root (by omega), by omega⟩

end Bemtvi.Arena
