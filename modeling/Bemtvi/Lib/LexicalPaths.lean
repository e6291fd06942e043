/-
Module: Bemtvi.Lib.LexicalPaths
Purpose: Paths read by their components alone: where a path leads from a directory, what is left of
  it when every step that is taken back is left out, and that no less is left for paths that lead
  everywhere to different places.
Trusted boundary: human-reviewed spec
Main exports: Component, follow, Reduced, reduce, follow_reduce, reduce_eq_iff
-/
import Mathlib

namespace Bemtvi.LexicalPaths

inductive Component (α : Type) where
  | stay
  | up
  | name (a : α)
deriving DecidableEq, Repr

variable {α : Type}

/-- One component, from a directory given by its names; above the top there is nothing. -/
def Component.step (dir : List α) : Component α → List α
  | .stay => dir
  | .up => dir.dropLast
  | .name a => dir ++ [a]

/-- Where a path leads from a directory. -/
def follow (dir : List α) (path : List (Component α)) : List α := path.foldl Component.step dir

@[simp] theorem follow_nil (dir : List α) : follow dir [] = dir := rfl

@[simp] theorem follow_cons (dir : List α) (c : Component α) (path : List (Component α)) :
    follow dir (c :: path) = follow (c.step dir) path := rfl

theorem follow_append (dir : List α) (path path' : List (Component α)) :
    follow dir (path ++ path') = follow (follow dir path) path' := List.foldl_append

theorem follow_concat (dir : List α) (path : List (Component α)) (c : Component α) :
    follow dir (path ++ [c]) = c.step (follow dir path) := by
  rw [follow_append, follow_cons, follow_nil]

/-- What is left of a path: steps up, and names behind them. -/
structure Reduced (α : Type) where
  ups : Nat
  names : List α
deriving DecidableEq, Repr

/-- One more component: a step up takes the last name back, if there is one. -/
def Reduced.push (path : Reduced α) : Component α → Reduced α
  | .stay => path
  | .up => if path.names = [] then ⟨path.ups + 1, []⟩ else ⟨path.ups, path.names.dropLast⟩
  | .name a => ⟨path.ups, path.names ++ [a]⟩

def reduce (path : List (Component α)) : Reduced α := path.foldl Reduced.push ⟨0, []⟩

theorem reduce_concat (path : List (Component α)) (c : Component α) :
    reduce (path ++ [c]) = (reduce path).push c := by
  rw [reduce, List.foldl_append]
  rfl

/-- Up some steps, and down the names. -/
def Reduced.follow (dir : List α) (path : Reduced α) : List α :=
  dir.take (dir.length - path.ups) ++ path.names

theorem Reduced.follow_push (dir : List α) (path : Reduced α) (c : Component α) :
    (path.push c).follow dir = c.step (path.follow dir) := by
  cases c with
  | stay => rfl
  | name a => simp only [Reduced.push, Reduced.follow, Component.step, List.append_assoc]
  | up =>
      simp only [Reduced.push, Component.step]
      split
      · next empty =>
          simp only [Reduced.follow, empty, List.append_nil]
          rw [List.dropLast_eq_take, List.take_take, List.length_take]
          congr 1
          omega
      · next some =>
          simp only [Reduced.follow]
          rw [List.dropLast_append_of_ne_nil some]

/-- What is left of a path leads where the path leads. -/
theorem follow_reduce (dir : List α) (path : List (Component α)) :
    (reduce path).follow dir = follow dir path := by
  induction path using List.reverseRecOn with
  | nil => simp [reduce, Reduced.follow]
  | append_singleton path c ih => rw [reduce_concat, Reduced.follow_push, follow_concat, ih]

/-- The path that a reduction is. -/
def Reduced.path (path : Reduced α) : List (Component α) :=
  List.replicate path.ups .up ++ path.names.map .name

theorem follow_ups (dir : List α) (ups : Nat) :
    follow dir (List.replicate ups .up) = dir.take (dir.length - ups) := by
  induction ups with
  | zero => simp
  | succ ups ih =>
      rw [List.replicate_succ', follow_concat, ih, Component.step, List.dropLast_eq_take,
        List.take_take, List.length_take]
      congr 1
      omega

theorem follow_names (dir names : List α) : follow dir (names.map .name) = dir ++ names := by
  induction names generalizing dir with
  | nil => simp
  | cons a names ih =>
      rw [List.map_cons, follow_cons, ih, Component.step, List.append_assoc, List.singleton_append]

theorem Reduced.follow_path (dir : List α) (path : Reduced α) :
    LexicalPaths.follow dir path.path = path.follow dir := by
  rw [Reduced.path, follow_append, follow_ups, follow_names, Reduced.follow]

/-- From the top, no step up is left. -/
theorem follow_top (path : List (Component α)) : follow [] path = (reduce path).names := by
  rw [← follow_reduce, Reduced.follow, List.take_nil, List.nil_append]

/-- Two reductions that lead to the same place from every directory are the same. -/
theorem Reduced.ext_of_follow [Infinite α] [DecidableEq α] {path path' : Reduced α}
    (same : ∀ dir, path.follow dir = path'.follow dir) : path = path' := by
  -- A directory of one new name tells the steps up from the names.
  obtain ⟨fresh, new⟩ := Infinite.exists_notMem_finset (path.names.toFinset ∪ path'.names.toFinset)
  rw [Finset.mem_union, List.mem_toFinset, List.mem_toFinset, not_or] at new
  have deep := same (List.replicate (path.ups + path'.ups) fresh)
  simp only [Reduced.follow, List.length_replicate, List.take_replicate] at deep
  have counted := congrArg (List.count fresh) deep
  simp only [List.count_append, List.count_replicate_self, List.count_eq_zero_of_not_mem new.1,
    List.count_eq_zero_of_not_mem new.2] at counted
  have ups : path.ups = path'.ups := by omega
  rw [ups] at deep
  have names := List.append_cancel_left deep
  cases path
  cases path'
  cases ups
  cases names
  rfl

theorem reduce_eq_iff [Infinite α] [DecidableEq α] {path path' : List (Component α)} :
    reduce path = reduce path' ↔ ∀ dir, follow dir path = follow dir path' := by
  constructor
  · intro same dir
    rw [← follow_reduce, ← follow_reduce, same]
  · intro same
    refine Reduced.ext_of_follow fun dir => ?_
    rw [follow_reduce, follow_reduce, same dir]

end Bemtvi.LexicalPaths
