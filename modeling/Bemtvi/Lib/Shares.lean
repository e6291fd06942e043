/-
Module: Bemtvi.Lib.Shares
Purpose: A number shared out by weights: shares rounded down, the rest handed out one at a time, and
  empty shares filled from the greatest.  The shares always add up to the number.
Trusted boundary: none
Main exports: floors, handOut, lastMax, refill, sum_floors_le, floors_self, sum_handOut, refill_spec
-/
import Mathlib

namespace Bemtvi.Shares

/-- Each weight's share of a total, rounded down. -/
def floors (avail total : Nat) (weights : List Nat) : List Nat :=
  weights.map fun weight => avail * weight / total

/-- One more to each share in turn, from an index on and round again. -/
def handOut : List Nat → Nat → Nat → List Nat
  | shares, 0, _ => shares
  | shares, left + 1, i => handOut (shares.modify (i % shares.length) (· + 1)) left (i + 1)

/-- The index of the greatest share, of the last one among equals. -/
def lastMax : List Nat → Nat
  | [] => 0
  | share :: rest => if rest = [] ∨ rest.getD (lastMax rest) 0 < share then 0 else lastMax rest + 1

/-- Fill the empty shares one by one, each from the greatest; `none` when that one is empty too. -/
def refill : Nat → List Nat → Option (List Nat)
  | 0, shares => some shares
  | turns + 1, shares =>
      if 0 ∈ shares then
        let greatest := lastMax shares
        if shares.getD greatest 0 = 0 then none
        else refill turns
          ((shares.modify greatest (· - 1)).modify (shares.idxOf 0) (· + 1))
      else some shares

/-! ### Shares rounded down -/

@[simp] theorem length_floors (avail total : Nat) (weights : List Nat) :
    (floors avail total weights).length = weights.length :=
  List.length_map _

theorem floors_mul_le (avail total : Nat) (weights : List Nat) :
    (floors avail total weights).sum * total ≤ avail * weights.sum := by
  induction weights with
  | nil => simp [floors]
  | cons weight weights ih =>
      have share := Nat.div_mul_le_self (avail * weight) total
      calc (floors avail total (weight :: weights)).sum * total
          = avail * weight / total * total + (floors avail total weights).sum * total := by
            rw [floors, List.map_cons, List.sum_cons, Nat.add_mul]
            rfl
        _ ≤ avail * weight + avail * weights.sum := Nat.add_le_add share ih
        _ = avail * (weight :: weights).sum := by rw [List.sum_cons, Nat.mul_add]

/-- No more is given than there is. -/
theorem sum_floors_le {avail total : Nat} {weights : List Nat} (positive : 0 < total)
    (whole : weights.sum ≤ total) : (floors avail total weights).sum ≤ avail := by
  have scaled := (floors_mul_le avail total weights).trans (Nat.mul_le_mul_left avail whole)
  exact Nat.le_of_mul_le_mul_right scaled positive

/-- Weights that add up to what there is are their own shares. -/
theorem floors_self (weights : List Nat) :
    floors weights.sum (max weights.sum 1) weights = weights := by
  rcases Nat.eq_zero_or_pos weights.sum with nothing | positive
  · have empty : ∀ weight ∈ weights, weight = 0 := List.sum_eq_zero_iff.1 nothing
    rw [nothing, floors]
    conv_rhs => rw [← List.map_id weights]
    apply List.map_congr_left
    intro weight member
    rw [empty weight member]
    rfl
  · rw [Nat.max_eq_left positive, floors]
    conv_rhs => rw [← List.map_id weights]
    apply List.map_congr_left
    intro weight member
    exact Nat.mul_div_cancel_left weight positive

/-! ### One more, one less -/

variable {i : Nat} {shares : List Nat}

theorem sum_modify_add (inside : i < shares.length) :
    (shares.modify i (· + 1)).sum = shares.sum + 1 := by
  induction shares generalizing i with
  | nil => cases inside
  | cons share shares ih =>
      cases i with
      | zero => simp [List.modify_zero_cons, Nat.add_right_comm]
      | succ i =>
          rw [List.modify_succ_cons, List.sum_cons, List.sum_cons, ih (Nat.lt_of_succ_lt_succ inside),
            Nat.add_assoc]

theorem sum_modify_sub (some_share : 0 < shares.getD i 0) :
    (shares.modify i (· - 1)).sum + 1 = shares.sum := by
  induction shares generalizing i with
  | nil => cases i <;> cases some_share
  | cons share shares ih =>
      cases i with
      | zero =>
          have positive : 0 < share := some_share
          rw [List.modify_zero_cons, List.sum_cons, List.sum_cons]
          omega
      | succ i =>
          have rest := ih (i := i) (by simpa using some_share)
          rw [List.modify_succ_cons, List.sum_cons, List.sum_cons, Nat.add_assoc, rest]

theorem count_zero_modify_sub (more : 1 < shares.getD i 0) :
    (shares.modify i (· - 1)).count 0 = shares.count 0 := by
  induction shares generalizing i with
  | nil => cases i <;> cases more
  | cons share shares ih =>
      cases i with
      | zero =>
          have more' : 1 < share := more
          have left : share - 1 ≠ 0 := by omega
          have here : share ≠ 0 := by omega
          rw [List.modify_zero_cons, List.count_cons_of_ne left, List.count_cons_of_ne here]
      | succ i =>
          have rest := ih (i := i) (by simpa using more)
          rw [List.modify_succ_cons, List.count_cons, List.count_cons, rest]

theorem count_zero_modify_add (inside : i < shares.length) (empty : shares.getD i 0 = 0) :
    (shares.modify i (· + 1)).count 0 + 1 = shares.count 0 := by
  induction shares generalizing i with
  | nil => cases inside
  | cons share shares ih =>
      cases i with
      | zero =>
          have empty' : share = 0 := empty
          subst empty'
          rw [List.modify_zero_cons, List.count_cons_of_ne (Nat.succ_ne_zero 0),
            List.count_cons_self]
      | succ i =>
          have rest := ih (i := i) (Nat.lt_of_succ_lt_succ inside) (by simpa using empty)
          rw [List.modify_succ_cons, List.count_cons, List.count_cons]
          omega

/-! ### The rest -/

@[simp] theorem length_handOut (shares : List Nat) (left i : Nat) :
    (handOut shares left i).length = shares.length := by
  induction left generalizing shares i with
  | zero => rfl
  | succ left ih => rw [handOut, ih, List.length_modify]

theorem sum_handOut (some_share : shares ≠ []) (left i : Nat) :
    (handOut shares left i).sum = shares.sum + left := by
  induction left generalizing shares i with
  | zero => rfl
  | succ left ih =>
      have inside : i % shares.length < shares.length :=
        Nat.mod_lt _ (List.length_pos_of_ne_nil some_share)
      have some_share' : shares.modify (i % shares.length) (· + 1) ≠ [] := by
        apply List.ne_nil_of_length_pos
        rw [List.length_modify]
        omega
      rw [handOut, ih some_share', sum_modify_add inside]
      omega

/-! ### Empty shares -/

/-- No share is above the greatest. -/
theorem le_lastMax {share : Nat} (member : share ∈ shares) :
    share ≤ shares.getD (lastMax shares) 0 := by
  induction shares with
  | nil => cases member
  | cons first rest ih =>
      rw [lastMax]
      split
      · next here =>
          rcases List.mem_cons.1 member with rfl | later
          · exact Nat.le_refl _
          · rcases here with none_left | below
            · rw [none_left] at later
              cases later
            · exact (ih later).trans (Nat.le_of_lt below)
      · next later =>
          rw [not_or, Nat.not_lt] at later
          rcases List.mem_cons.1 member with rfl | behind
          · exact later.2
          · exact ih behind

/-- Where there is one for each and a share is empty, another holds more than one. -/
theorem one_lt_lastMax (plenty : shares.length ≤ shares.sum) (empty : 0 ∈ shares) :
    1 < shares.getD (lastMax shares) 0 := by
  by_contra few
  have small : ∀ share ∈ shares, share ≤ 1 := fun share member =>
    (le_lastMax member).trans (Nat.not_lt.1 few)
  have short : shares.sum < shares.length := by
    clear plenty few
    induction shares with
    | nil => cases empty
    | cons share rest ih =>
        rw [List.forall_mem_cons] at small
        rw [List.sum_cons, List.length_cons]
        have most : rest.sum ≤ rest.length := by
          simpa using List.sum_le_card_nsmul rest 1 small.2
        rcases List.mem_cons.1 empty with here | later
        · omega
        · have rest' := ih later small.2
          omega
  omega

/-- **With one for each, every share is filled, and none is lost.** -/
theorem refill_spec {turns : Nat} (plenty : shares.length ≤ shares.sum)
    (enough : shares.count 0 ≤ turns) :
    ∃ filled, refill turns shares = some filled ∧ filled.length = shares.length ∧
      filled.sum = shares.sum ∧ ∀ share ∈ filled, 0 < share := by
  induction turns generalizing shares with
  | zero =>
      refine ⟨shares, rfl, rfl, rfl, fun share member => Nat.pos_of_ne_zero ?_⟩
      rintro rfl
      exact List.count_eq_zero.1 (Nat.le_zero.1 enough) member
  | succ turns ih =>
      by_cases empty : 0 ∈ shares
      · have greatest := one_lt_lastMax plenty empty
        have at_zero : shares.idxOf 0 < shares.length := List.idxOf_lt_length_iff.2 empty
        have is_zero : shares.getD (shares.idxOf 0) 0 = 0 := by
          rw [List.getD_eq_getElem _ _ at_zero, List.getElem_idxOf]
        have apart : lastMax shares ≠ shares.idxOf 0 := by
          intro same
          rw [same, is_zero] at greatest
          omega
        have taken : (shares.modify (lastMax shares) (· - 1)).getD (shares.idxOf 0) 0 = 0 := by
          rw [List.getD_eq_getElem?_getD, List.getElem?_modify_ne _ _ apart,
            ← List.getD_eq_getElem?_getD, is_zero]
        have inside : shares.idxOf 0 < (shares.modify (lastMax shares) (· - 1)).length := by
          rwa [List.length_modify]
        have sum := sum_modify_sub (Nat.lt_of_succ_lt greatest)
        have sum' := sum_modify_add inside
        have count := count_zero_modify_sub greatest
        have count' := count_zero_modify_add inside taken
        have plenty' : ((shares.modify (lastMax shares) (· - 1)).modify (shares.idxOf 0)
            (· + 1)).length ≤
              ((shares.modify (lastMax shares) (· - 1)).modify (shares.idxOf 0) (· + 1)).sum := by
          rw [List.length_modify, List.length_modify]
          omega
        obtain ⟨filled, refilled, length, total, positive⟩ := ih plenty' (by omega)
        refine ⟨filled, ?_, ?_, ?_, positive⟩
        · rw [refill, if_pos empty]
          exact (if_neg (by omega)).trans refilled
        · rw [length, List.length_modify, List.length_modify]
        · omega
      · refine ⟨shares, if_neg empty, rfl, rfl, fun share member => Nat.pos_of_ne_zero ?_⟩
        rintro rfl
        exact empty member

/-- Shares without an empty one stay as they are. -/
theorem refill_of_pos (turns : Nat) (positive : ∀ share ∈ shares, 0 < share) :
    refill turns shares = some shares := by
  cases turns with
  | zero => rfl
  | succ turns =>
      rw [refill, if_neg]
      intro empty
      exact absurd (positive 0 empty) (Nat.lt_irrefl 0)

end Bemtvi.Shares
