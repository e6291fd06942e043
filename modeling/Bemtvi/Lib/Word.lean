/-
Module: Bemtvi.Lib.Word
Purpose: Machine words of 64 bits as natural numbers and integers: additions and products that are
  refused where they overflow, saturating sums, and the reading of a word as a signed one.
Trusted boundary: none
Main exports: checkedAdd, checkedSub, checkedSum, checkedNeg, checkedMul, satAdd, toSigned, saturate
-/
import Mathlib.Algebra.Order.BigOperators.Group.List
import Mathlib.Tactic.Ring

namespace Bemtvi.Word

/-- A sum; `none` where it does not fit in a word. -/
def checkedAdd (a b : Nat) : Option Nat := if a + b < 2 ^ 64 then some (a + b) else none

/-- A difference; `none` below zero. -/
def checkedSub (a b : Nat) : Option Nat := if b ≤ a then some (a - b) else none

/-- The sum of a list; `none` where it does not fit in a word. -/
def checkedSum (words : List Nat) : Option Nat := words.foldlM checkedAdd 0

/-- The amount of a negative signed word; `none` for the least, whose negation is not a signed
word. -/
def checkedNeg (i : Int) : Option Nat := if -2 ^ 63 < i then some (-i).toNat else none

/-- A product; `none` where it does not fit in a word. -/
def checkedMul (a b : Nat) : Option Nat := if a * b < 2 ^ 64 then some (a * b) else none

/-- A sum cut at the largest word. -/
def satAdd (a b : Nat) : Nat := min (a + b) (2 ^ 64 - 1)

/-- A word read as a signed one. -/
def toSigned (n : Nat) : Int := if n < 2 ^ 63 then n else n - 2 ^ 64

/-- An integer cut at the smallest and at the largest signed word. -/
def saturate (i : Int) : Int := max (-2 ^ 63) (min i (2 ^ 63 - 1))

theorem checkedAdd_eq_some {a b c : Nat} :
    checkedAdd a b = some c ↔ a + b < 2 ^ 64 ∧ c = a + b := by
  unfold checkedAdd
  split <;> simp_all [eq_comm]

theorem checkedSub_of_le {a b : Nat} (below : b ≤ a) : checkedSub a b = some (a - b) := if_pos below

theorem foldlM_checkedAdd_eq_some {words : List Nat} {start total : Nat} (small : start < 2 ^ 64) :
    words.foldlM checkedAdd start = some total ↔
      start + words.sum < 2 ^ 64 ∧ total = start + words.sum := by
  induction words generalizing start with
  | nil =>
      rw [List.foldlM_nil, List.sum_nil, Nat.add_zero]
      constructor
      · intro same
        exact ⟨small, (Option.some.inj same).symm⟩
      · rintro ⟨-, rfl⟩
        rfl
  | cons word words ih =>
      rw [List.foldlM_cons, List.sum_cons]
      by_cases fits : start + word < 2 ^ 64
      · rw [checkedAdd, if_pos fits]
        simp only [Option.bind_eq_bind, Option.bind_some, ih fits, Nat.add_assoc]
      · rw [checkedAdd, if_neg fits]
        constructor
        · intro absent
          cases absent
        · rintro ⟨fits', -⟩
          omega

/-- A sum that fits is the sum. -/
theorem checkedSum_eq_some {words : List Nat} {total : Nat} :
    checkedSum words = some total ↔ words.sum < 2 ^ 64 ∧ total = words.sum := by
  unfold checkedSum
  rw [foldlM_checkedAdd_eq_some (Nat.two_pow_pos 64), Nat.zero_add]

theorem toSigned_small {n : Nat} (small : n < 2 ^ 63) : toSigned n = n := if_pos small

theorem toSigned_large {n : Nat} (large : 2 ^ 63 ≤ n) : toSigned n = n - 2 ^ 64 :=
  if_neg (Nat.not_lt.2 large)

theorem toSigned_cases (n : Nat) :
    (n < 2 ^ 63 ∧ toSigned n = n) ∨ (2 ^ 63 ≤ n ∧ toSigned n = n - 2 ^ 64) := by
  rcases Nat.lt_or_ge n (2 ^ 63) with small | large
  · exact Or.inl ⟨small, toSigned_small small⟩
  · exact Or.inr ⟨large, toSigned_large large⟩

theorem toSigned_le (n : Nat) : toSigned n ≤ n := by
  unfold toSigned
  split <;> omega

end Bemtvi.Word
