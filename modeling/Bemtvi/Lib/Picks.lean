/-
Module: Bemtvi.Lib.Picks
Purpose: The greatest and the least of a list by a key: among equals the greatest is the last one and
  the least the first one.
Trusted boundary: human-reviewed spec
Main exports: maxByKey, minByKey, pick_mem, maxByKey_best, minByKey_best, maxByKey_last, maxByKey_map,
  maxByKey_congr
-/
import Mathlib

namespace Bemtvi.Picks

/-- `max_by_key`: among equals the last. -/
def maxByKey {α κ : Type} (lt : κ → κ → Bool) (key : α → κ) : List α → Option α
  | [] => none
  | x :: xs => some (xs.foldl (fun best y => if lt (key y) (key best) then best else y) x)

/-- `min_by_key`: among equals the first. -/
def minByKey {α κ : Type} (lt : κ → κ → Bool) (key : α → κ) : List α → Option α
  | [] => none
  | x :: xs => some (xs.foldl (fun best y => if lt (key y) (key best) then y else best) x)

/-! ### A pick is one of the candidates -/

theorem maxByKey_eq_none {α κ : Type} {lt : κ → κ → Bool} {key : α → κ} {xs : List α} :
    maxByKey lt key xs = none ↔ xs = [] := by
  cases xs <;> simp [maxByKey]

theorem minByKey_eq_none {α κ : Type} {lt : κ → κ → Bool} {key : α → κ} {xs : List α} :
    minByKey lt key xs = none ↔ xs = [] := by
  cases xs <;> simp [minByKey]

theorem foldl_pick_mem {α : Type} (pick : α → α → α) (either : ∀ a b, pick a b = a ∨ pick a b = b)
    (xs : List α) (x : α) : xs.foldl pick x ∈ x :: xs := by
  induction xs generalizing x with
  | nil => exact List.mem_cons_self
  | cons y xs ih =>
      rw [List.foldl_cons]
      rcases either x y with same | same
      · rw [same]
        rcases List.mem_cons.1 (ih x) with first | later
        · exact List.mem_cons.2 (Or.inl first)
        · exact List.mem_cons_of_mem _ (List.mem_cons_of_mem _ later)
      · rw [same]
        exact List.mem_cons_of_mem _ (ih y)

theorem maxByKey_mem {α κ : Type} {lt : κ → κ → Bool} {key : α → κ} {xs : List α} {x : α}
    (found : maxByKey lt key xs = some x) : x ∈ xs := by
  cases xs with
  | nil => cases found
  | cons y xs =>
      cases found
      apply foldl_pick_mem
      intro a b
      split
      · exact Or.inl rfl
      · exact Or.inr rfl

theorem minByKey_mem {α κ : Type} {lt : κ → κ → Bool} {key : α → κ} {xs : List α} {x : α}
    (found : minByKey lt key xs = some x) : x ∈ xs := by
  cases xs with
  | nil => cases found
  | cons y xs =>
      cases found
      apply foldl_pick_mem
      intro a b
      split
      · exact Or.inr rfl
      · exact Or.inl rfl

/-- A pick by key, either way, is one of the candidates. -/
theorem pick_mem {α κ : Type} {lt : κ → κ → Bool} {key : α → κ} {xs : List α} {x : α} {back : Bool}
    (picked : (if back then maxByKey lt key xs else minByKey lt key xs) = some x) : x ∈ xs := by
  cases back with
  | false => exact minByKey_mem picked
  | true => exact maxByKey_mem picked

/-! ### A pick is the best of them -/

/-- What a pick out of two is at least as good as, a pick out of a list is. -/
theorem foldl_pick_best {α : Type} (Good : α → α → Prop) (refl : ∀ a, Good a a)
    (trans : ∀ a b c, Good a b → Good b c → Good a c) {pick : α → α → α}
    (left : ∀ a b, Good (pick a b) a) (right : ∀ a b, Good (pick a b) b) (xs : List α) (x : α) :
    ∀ y ∈ x :: xs, Good (xs.foldl pick x) y := by
  induction xs generalizing x with
  | nil =>
      intro y only
      rw [List.mem_singleton.1 only]
      exact refl x
  | cons z xs ih =>
      intro y listed
      rw [List.foldl_cons]
      have kept := ih (pick x z) _ List.mem_cons_self
      rcases List.mem_cons.1 listed with first | later
      · exact trans _ _ _ kept (first ▸ left x z)
      · rcases List.mem_cons.1 later with second | rest
        · exact trans _ _ _ kept (second ▸ right x z)
        · exact ih (pick x z) y (List.mem_cons_of_mem _ rest)

theorem maxByKey_best {α : Type} {key : α → Nat} {xs : List α} {x : α}
    (found : maxByKey (· < ·) key xs = some x) : ∀ y ∈ xs, key y ≤ key x := by
  cases xs with
  | nil => cases found
  | cons z xs =>
      cases found
      apply foldl_pick_best fun a b => key b ≤ key a
      · exact fun a => Nat.le_refl _
      · exact fun a b c first second => Nat.le_trans second first
      · intro a b
        split
        · exact Nat.le_refl _
        · next least => simpa using least
      · intro a b
        split
        · next less => exact Nat.le_of_lt (by simpa using less)
        · exact Nat.le_refl _

theorem minByKey_best {α : Type} {key : α → Nat} {xs : List α} {x : α}
    (found : minByKey (· < ·) key xs = some x) : ∀ y ∈ xs, key x ≤ key y := by
  cases xs with
  | nil => cases found
  | cons z xs =>
      cases found
      apply foldl_pick_best fun a b => key a ≤ key b
      · exact fun a => Nat.le_refl _
      · exact fun a b c first second => Nat.le_trans first second
      · intro a b
        split
        · next less => exact Nat.le_of_lt (by simpa using less)
        · exact Nat.le_refl _
      · intro a b
        split
        · exact Nat.le_refl _
        · next least => simpa using least

/-! ### The last of the greatest -/

section Greatest

variable {α κ : Type} [LinearOrder κ] {key : α → κ}

variable {xs : List α}

/-- `max_by_key` keeps the last of the greatest. -/
theorem maxByKey_last {x : α} (found : maxByKey (fun a b => decide (a < b)) key xs = some x) :
    ∃ front back, xs = front ++ x :: back ∧ (∀ y ∈ front, key y ≤ key x) ∧
      ∀ y ∈ back, key y < key x := by
  -- The induction is on what is left; what was seen splits at the best of it.
  have sweep : ∀ (ys front back : List α) (best : α), (∀ y ∈ front, key y ≤ key best) →
      (∀ y ∈ back, key y < key best) →
      ∃ front' back', front ++ best :: back ++ ys = front' ++
        ys.foldl (fun best y => if decide (key y < key best) then best else y) best :: back' ∧
        (∀ y ∈ front', key y ≤ key (ys.foldl (fun best y =>
          if decide (key y < key best) then best else y) best)) ∧
        ∀ y ∈ back', key y < key (ys.foldl (fun best y =>
          if decide (key y < key best) then best else y) best) := by
    intro ys
    induction ys with
    | nil => exact fun front back best before behind => ⟨front, back, List.append_nil _, before, behind⟩
    | cons y ys ih =>
        intro front back best before behind
        rw [List.foldl_cons]
        by_cases less : key y < key best
        · rw [if_pos (decide_eq_true less)]
          rcases ih front (back ++ [y]) best before fun z member => by
            rcases List.mem_append.1 member with old | new
            · exact behind z old
            · exact List.mem_singleton.1 new ▸ less with ⟨front', back', whole, before, behind⟩
          exact ⟨front', back', by rw [← whole]; simp, before, behind⟩
        · rw [if_neg fun true_less => less (of_decide_eq_true true_less)]
          have greatest := le_of_not_gt less
          rcases ih (front ++ best :: back) [] y (fun z member => by
            rcases List.mem_append.1 member with old | new
            · exact (before z old).trans greatest
            · rcases List.mem_cons.1 new with same | later
              · exact same ▸ greatest
              · exact (behind z later).le.trans greatest) (fun z none_yet => by
            exact absurd none_yet List.not_mem_nil) with ⟨front', back', whole, before, behind⟩
          exact ⟨front', back', by rw [← whole]; simp, before, behind⟩
  cases xs with
  | nil => cases found
  | cons x' xs =>
      cases found
      exact sweep xs [] [] x' (fun _ none_yet => absurd none_yet List.not_mem_nil)
        fun _ none_yet => absurd none_yet List.not_mem_nil

omit [LinearOrder κ] in
theorem maxByKey_isSome (lt : κ → κ → Bool) (some_there : xs ≠ []) :
    (maxByKey lt key xs).isSome = true := by
  cases xs with
  | nil => exact absurd rfl some_there
  | cons x xs => rfl

omit [LinearOrder κ] in
theorem maxByKey_map {β : Type} (lt : κ → κ → Bool) (f : β → α) (xs : List β) :
    maxByKey lt key (xs.map f) = (maxByKey lt (key ∘ f) xs).map f := by
  cases xs with
  | nil => rfl
  | cons x xs =>
      show some _ = some _
      congr 1
      induction xs generalizing x with
      | nil => rfl
      | cons y xs ih =>
          rw [List.map_cons, List.foldl_cons, List.foldl_cons]
          have first : (if lt (key (f y)) (key (f x)) = true then f x else f y) =
              f (if lt ((key ∘ f) y) ((key ∘ f) x) = true then x else y) :=
            (apply_ite f _ _ _).symm
          rw [first]
          exact ih _

/-- Keys that compare alike pick alike. -/
theorem maxByKey_congr {key' : α → κ}
    (alike : ∀ x ∈ xs, ∀ y ∈ xs, key x < key y ↔ key' x < key' y) :
    maxByKey (fun a b => decide (a < b)) key xs = maxByKey (fun a b => decide (a < b)) key' xs := by
  cases xs with
  | nil => rfl
  | cons x xs =>
      show some _ = some _
      congr 1
      induction xs generalizing x with
      | nil => rfl
      | cons y xs ih =>
          rw [List.foldl_cons, List.foldl_cons]
          have here : decide (key y < key x) = decide (key' y < key' x) := decide_eq_decide.2
            (alike y (List.mem_cons_of_mem _ List.mem_cons_self) x List.mem_cons_self)
          simp only [here]
          apply ih
          intro z member z' member'
          have within : ∀ z ∈ (if decide (key' y < key' x) = true then x else y) :: xs,
              z ∈ x :: y :: xs := by
            intro z member
            rcases List.mem_cons.1 member with same | later
            · rw [same]
              split
              · exact List.mem_cons_self
              · exact List.mem_cons_of_mem _ List.mem_cons_self
            · exact List.mem_cons_of_mem _ (List.mem_cons_of_mem _ later)
          exact alike z (within z member) z' (within z' member')

end Greatest

end Bemtvi.Picks
