/-
Module: Bemtvi.Rpc.ScanLaws
Purpose: `scan_frame` is a lawful resumable scanner.  A turn that does not run out of bytes is
  unchanged by later bytes, a turn that does returns the state it was entered with, and the
  invariant of the walk (`FrameScan.Walking`) keeps every array index in range.
Trusted boundary: none
Main exports: FrameScan.Walking, FrameScan.Stored, turn_walking, scanFrame_lawful
-/
import Bemtvi.Rpc.ScanFrame

namespace Bemtvi.Rpc

open Resumable (Outcome Lawful)

/-! ### The invariant of the walk -/

/-- The invariant of the walk: level `i` runs on budget `MAX_DEPTH - 2 * i`, so containers stop
nesting at half the arrays' size. -/
structure FrameScan.Walking (st : FrameScan) : Prop where
  shallow : 2 * st.depth ≤ maxDepth + 2
  budgets : ∀ level, level < st.depth → st.budget[level]? = some (maxDepth - 2 * level)

/-- A walk fit to be stored: it stands at a value still owed. -/
structure FrameScan.Stored (st : FrameScan) : Prop extends FrameScan.Walking st where
  deep : 0 < st.depth
  owes : ∃ owed, st.stack[st.depth - 1]? = some (owed + 1)

theorem FrameScan.new_stored : FrameScan.new.Stored where
  shallow := by decide
  budgets := by
    intro level inside
    have zero : level = 0 := Nat.lt_one_iff.1 inside
    subst zero
    rw [Vector.getElem?_eq_getElem (by decide)]
    simp [FrameScan.new]
  deep := Nat.one_pos
  owes := by
    refine ⟨0, ?_⟩
    rw [Vector.getElem?_eq_getElem (by decide)]
    simp [FrameScan.new]

variable {st st' : FrameScan} {budget : Nat} {buf : List UInt8}

theorem FrameScan.Walking.in_range (walking : st.Walking) : st.depth - 1 < maxDepth := by
  have shallow := walking.shallow
  unfold maxDepth at *
  omega

theorem FrameScan.Walking.stack_some (walking : st.Walking) :
    ∃ owed, st.stack[st.depth - 1]? = some owed :=
  ⟨_, Vector.getElem?_eq_getElem walking.in_range⟩

theorem FrameScan.Walking.budget_some (walking : st.Walking) (deep : 0 < st.depth) :
    st.budget[st.depth - 1]? = some (maxDepth - 2 * (st.depth - 1)) :=
  walking.budgets _ (Nat.sub_lt deep Nat.one_pos)

/-- Moving the position, the count or the stack keeps the invariant. -/
theorem FrameScan.Walking.congr (walking : st.Walking) (budget : st'.budget = st.budget)
    (depth : st'.depth = st.depth) : st'.Walking where
  shallow := by rw [depth]; exact walking.shallow
  budgets := by rw [depth, budget]; exact walking.budgets

/-- A container affords its level, so the level it pushes is in range. -/
theorem container_walking (st : FrameScan) {count : Nat} (walking : st.Walking)
    (deep : 0 < st.depth) (affords : 2 ≤ maxDepth - 2 * (st.depth - 1))
    (step : st.container (maxDepth - 2 * (st.depth - 1)) count = .continue st') :
    st'.Walking := by
  rcases container_continue step with ⟨-, shallow, rfl⟩
  refine ⟨?_, ?_⟩
  · simp only
    omega
  · intro level inside
    simp only at inside ⊢
    rw [Vector.getElem?_setIfInBounds]
    split
    · next same =>
        subst same
        have below : maxDepth - 2 * (st.depth - 1) - 2 = maxDepth - 2 * st.depth := by omega
        rw [below]
    · next other => exact walking.budgets level (by omega)

theorem container_ne_outOfBounds (st : FrameScan) {count : Nat} (shallow : st.depth < maxDepth) :
    st.container budget count ≠ .leave (.reject .outOfBounds) := by
  intro step
  unfold FrameScan.container at step
  split at step <;> cases step

/-- A container's marker charges its level and the level below. -/
theorem container_charge {marker : UInt8} (container : (layout marker).isContainer = true) :
    charge marker = 2 := by
  have every : ∀ byte : Fin 256, (layout (UInt8.ofNat byte.val)).isContainer = true →
      charge (UInt8.ofNat byte.val) = 2 := by
    decide +kernel
  have this := every ⟨marker.toNat, marker.toNat_lt⟩
  rw [UInt8.ofNat_toNat] at this
  exact this container

/-- **Step lemma.**  Going on keeps the invariant. -/
theorem turn_walking (walking : st.Walking) (deep : 0 < st.depth)
    (step : turn buf st = .continue st') : st'.Walking := by
  rcases turn_continue_cases step with ⟨-, rfl⟩ | ⟨owed, marker, budget, claimed, past⟩
  · refine ⟨?_, ?_⟩
    · have shallow := walking.shallow
      simp only
      omega
    · intro level inside
      exact walking.budgets level (by simp only at inside; omega)
  · have known := walking.budget_some deep
    rw [claimed.budgeted, Option.some.injEq] at known
    subst known
    have same : (st.pastMarker owed).Walking := walking.congr rfl rfl
    have affords := claimed.affords
    cases shape : layout marker with
    | fixed n =>
        simp only [shape, FrameScan.body] at past
        split at past <;> cases past
        exact same.congr rfl rfl
    | payload n extra =>
        simp only [shape, FrameScan.body] at past
        split at past
        · cases past
        · split at past
          · cases past
          · split at past <;> cases past
            exact same.congr rfl rfl
    | container count =>
        rw [container_charge (by rw [shape]; rfl)] at affords
        simp only [shape, FrameScan.body] at past
        exact container_walking _ same deep affords past
    | sized n each =>
        rw [container_charge (by rw [shape]; rfl)] at affords
        simp only [shape, FrameScan.body] at past
        split at past
        · cases past
        · next len pos read =>
            exact container_walking { st.pastMarker owed with pos := pos }
              (same.congr rfl rfl) deep affords past

/-- **No index of the fixed-size arrays goes out of range.** -/
theorem turn_ne_outOfBounds (buf : List UInt8) (walking : st.Walking) (deep : 0 < st.depth) :
    turn buf st ≠ .leave (.reject .outOfBounds) := by
  intro step
  rcases turn_leave_cases step with ⟨owed, marker, budget, claimed, left⟩ |
    ⟨_, -, -, same⟩ | ⟨-, same⟩ | ⟨-, same⟩ | ⟨missing | missing, -⟩
  · have known := walking.budget_some deep
    rw [claimed.budgeted, Option.some.injEq] at known
    subst known
    have affords := claimed.affords
    have room : 2 ≤ maxDepth - 2 * (st.depth - 1) → st.depth < maxDepth := by
      have shallow := walking.shallow
      unfold maxDepth at *
      omega
    cases shape : layout marker with
    | fixed n =>
        simp only [shape, FrameScan.body] at left
        split at left <;> cases left
    | payload n extra =>
        simp only [shape, FrameScan.body] at left
        split at left
        · cases left
        · split at left
          · cases left
          · split at left <;> cases left
    | container count =>
        rw [container_charge (by rw [shape]; rfl)] at affords
        simp only [shape, FrameScan.body] at left
        exact container_ne_outOfBounds (st.pastMarker owed) (room affords) left
    | sized n each =>
        rw [container_charge (by rw [shape]; rfl)] at affords
        simp only [shape, FrameScan.body] at left
        split at left
        · cases left
        · next len pos read =>
            exact container_ne_outOfBounds { st.pastMarker owed with pos := pos }
              (room affords) left
  · cases same
  · cases same
  · cases same
  · rcases walking.stack_some with ⟨owed, present⟩
    rw [missing] at present
    cases present
  · rw [walking.budget_some deep] at missing
    cases missing

/-! ### Later bytes change nothing that has been decided -/

theorem readBe_append {pos n len pos' : Nat} (later : List UInt8)
    (read : readBe buf pos n = some (len, pos')) :
    readBe (buf ++ later) pos n = some (len, pos') := by
  have fits := (readBe_eq_some read).1
  rw [← read]
  unfold readBe
  rw [if_pos fits, if_pos (by rw [List.length_append]; omega),
    List.drop_append_of_le_length (by omega),
    List.take_append_of_le_length (by rw [List.length_drop]; omega)]

theorem skip_append {pos n pos' : Nat} (later : List UInt8) (skipped : skip buf pos n = some pos') :
    skip (buf ++ later) pos n = some pos' := by
  rcases skip_eq_some skipped with ⟨fits, rfl⟩
  unfold skip
  rw [if_neg (by rw [List.length_append]; omega)]

/-- A body that did not run out of bytes is unchanged by later ones. -/
theorem body_append {d valueStart : Nat} {shape : Layout} (later : List UInt8)
    (decided : ∀ walk, st.body buf d valueStart budget shape ≠ .leave (.incomplete walk)) :
    st.body (buf ++ later) d valueStart budget shape = st.body buf d valueStart budget shape := by
  cases shape with
  | fixed n =>
      simp only [FrameScan.body] at decided ⊢
      cases skipped : skip buf st.pos n with
      | none => simp [skipped] at decided
      | some pos => rw [skip_append later skipped]
  | payload n extra =>
      simp only [FrameScan.body] at decided ⊢
      cases read : readBe buf st.pos n with
      | none => simp [read] at decided
      | some field =>
          rcases field with ⟨len, pos⟩
          simp only [read, readBe_append later read] at decided ⊢
          split
          · rfl
          · next fits =>
              rw [if_neg fits] at decided
              cases skipped : skip buf pos (extra + len) with
              | none => simp [skipped] at decided
              | some pos' => rw [skip_append later skipped]
  | container count => rfl
  | sized n each =>
      simp only [FrameScan.body] at decided ⊢
      cases read : readBe buf st.pos n with
      | none => simp [read] at decided
      | some field => simp only [readBe_append later read]

/-- A claimed value is claimed on every longer buffer. -/
theorem Claimed.append {owed : Nat} {marker : UInt8} (claimed : Claimed buf st owed marker budget)
    (later : List UInt8) : Claimed (buf ++ later) st owed marker budget where
  owes := claimed.owes
  counted := claimed.counted
  arrived := by
    rw [List.getElem?_append_left (List.getElem?_eq_some_iff.1 claimed.arrived).1,
      claimed.arrived]
  budgeted := claimed.budgeted
  affords := claimed.affords

theorem turn_append (later : List UInt8)
    (decided : ∀ walk, turn buf st ≠ .leave (.incomplete walk)) :
    turn (buf ++ later) st = turn buf st := by
  rcases turn_cases buf st with ⟨finished, pop⟩ | ⟨owed, marker, budget, claimed⟩ |
    ⟨_, -, -, -, starved⟩ | ⟨_, -, -, full⟩ | ⟨_, _, _, -, -, -, -, -, full⟩ | ⟨-, broken⟩
  · rw [pop, turn_pop finished]
  · rw [turn_claimed claimed] at decided ⊢
    rw [turn_claimed (claimed.append later), body_append later decided]
  · exact absurd starved (decided _)
  · rw [full later, ← full [], List.append_nil]
  · rw [full later, ← full [], List.append_nil]
  · rw [broken later, ← broken [], List.append_nil]

/-! ### The undo is exact -/

/-- Unclaiming what was claimed gives back the state before the claim. -/
theorem unclaim_claim (st : FrameScan) {d owed : Nat} (owes : st.stack[d]? = some (owed + 1))
    (pos : Nat) : { st.claim d (owed + 1) with pos := pos }.unclaim d st.pos = st := by
  have inside : d < maxDepth := by
    rcases Vector.getElem?_eq_some_iff.1 owes with ⟨inside, -⟩
    exact inside
  have restored : (st.stack.setIfInBounds d owed).setIfInBounds d (owed + 1) = st.stack := by
    apply Vector.ext
    intro level bound
    rw [Vector.getElem_setIfInBounds, Vector.getElem_setIfInBounds]
    by_cases same : d = level
    · subst same
      rcases Vector.getElem?_eq_some_iff.1 owes with ⟨_, value⟩
      rw [if_pos rfl, value]
    · rw [if_neg same, if_neg same]
  have read : (st.stack.setIfInBounds d owed)[d]? = some owed := by
    rw [Vector.getElem?_setIfInBounds, if_pos rfl, if_pos inside]
  simp only [FrameScan.unclaim, FrameScan.claim, Nat.add_sub_cancel, read, Option.getD_some,
    restored]

/-- **The undo is exact.**  A turn that runs out of bytes hands back the state it was entered
with, standing at a value still owed. -/
theorem turn_incomplete {walk : FrameScan} (step : turn buf st = .leave (.incomplete walk)) :
    walk = st ∧ ∃ owed, st.stack[st.depth - 1]? = some (owed + 1) := by
  rcases turn_leave_cases step with ⟨owed, marker, budget, claimed, left⟩ |
    ⟨owed, owes, -, same⟩ | ⟨-, same⟩ | ⟨-, same⟩ | ⟨-, same⟩
  · refine ⟨?_, owed, claimed.owes⟩
    rw [body_incomplete left]
    exact unclaim_claim st claimed.owes (st.pos + 1)
  · cases same
    exact ⟨unclaim_claim st owes st.pos, owed, owes⟩
  all_goals cases same

/-! ### The loop -/

theorem scanLoop_done (done : st.depth = 0) : scanLoop buf st = .complete st.pos := by
  rw [scanLoop, dif_neg (by omega)]

theorem scanLoop_continue (deep : 0 < st.depth) (step : turn buf st = .continue st') :
    scanLoop buf st = scanLoop buf st' := by
  rw [scanLoop, dif_pos deep]
  split
  · next next_st same =>
      rw [step] at same
      cases same
      rfl
  · next outcome same =>
      rw [step] at same
      cases same

theorem scanLoop_leave {outcome : Outcome FrameScan ScanStop} (deep : 0 < st.depth)
    (step : turn buf st = .leave outcome) : scanLoop buf st = outcome := by
  rw [scanLoop, dif_pos deep]
  split
  · next next_st same =>
      rw [step] at same
      cases same
  · next other same =>
      rw [step] at same
      cases same
      rfl

/-- A decided scan is unchanged by later bytes; an interrupted one is continued by the walk it
stored. -/
theorem scanLoop_append (buf later : List UInt8) (st : FrameScan) :
    (∀ walk, scanLoop buf st = .incomplete walk →
      scanLoop (buf ++ later) walk = scanLoop (buf ++ later) st) ∧
    ((∀ walk, scanLoop buf st ≠ .incomplete walk) →
      scanLoop (buf ++ later) st = scanLoop buf st) := by
  induction st using scanLoop.induct buf with
  | case1 st deep st' step ih =>
      have step_later : turn (buf ++ later) st = .continue st' := by
        rw [turn_append later (by rw [step]; intro walk same; cases same), step]
      rw [scanLoop_continue deep step, scanLoop_continue deep step_later]
      exact ih
  | case2 st deep outcome step =>
      rw [scanLoop_leave deep step]
      refine ⟨?_, ?_⟩
      · rintro walk rfl
        rcases turn_incomplete step with ⟨rfl, -⟩
        rfl
      · intro decided
        have step_later : turn (buf ++ later) st = .leave outcome := by
          rw [turn_append later ?_, step]
          intro walk same
          rw [step] at same
          cases same
          exact decided walk rfl
        exact scanLoop_leave deep step_later
  | case3 st done =>
      have zero : st.depth = 0 := Nat.eq_zero_of_not_pos done
      rw [scanLoop_done zero, scanLoop_done zero]
      refine ⟨?_, fun _ => rfl⟩
      intro walk same
      cases same

/-- **Run lemma.**  A scan from a walking state stores only walks fit to be stored, and never
indexes out of range. -/
theorem scanLoop_walking (buf : List UInt8) (st : FrameScan) (walking : st.Walking) :
    (∀ walk, scanLoop buf st = .incomplete walk → walk.Stored) ∧
      scanLoop buf st ≠ .reject .outOfBounds := by
  induction st using scanLoop.induct buf with
  | case1 st deep st' step ih =>
      rw [scanLoop_continue deep step]
      exact ih (turn_walking walking deep step)
  | case2 st deep outcome step =>
      rw [scanLoop_leave deep step]
      refine ⟨?_, ?_⟩
      · rintro walk rfl
        rcases turn_incomplete step with ⟨rfl, owes⟩
        exact ⟨walking, deep, owes⟩
      · rintro rfl
        exact turn_ne_outOfBounds buf walking deep step
  | case3 st done =>
      rw [scanLoop_done (Nat.eq_zero_of_not_pos done)]
      refine ⟨?_, ?_⟩
      · intro walk same
        cases same
      · intro same
        cases same

/-- A completed scan ends inside the buffer, at or past where it started. -/
theorem scanLoop_complete_pos (buf : List UInt8) (st : FrameScan) (inside : st.pos ≤ buf.length)
    (length : Nat) (done : scanLoop buf st = .complete length) :
    st.pos ≤ length ∧ length ≤ buf.length := by
  induction st using scanLoop.induct buf with
  | case1 st deep st' step ih =>
      rw [scanLoop_continue deep step] at done
      rcases turn_continue_cases step with ⟨-, rfl⟩ | ⟨owed, marker, budget, claimed, past⟩
      · exact ih inside done
      · have arrived := (List.getElem?_eq_some_iff.1 claimed.arrived).1
        have moved := body_continue_pos past (Nat.succ_le_of_lt arrived)
        have start : (st.pastMarker owed).pos = st.pos + 1 := rfl
        have result := ih moved.2 done
        exact ⟨by omega, result.2⟩
  | case2 st deep outcome step =>
      rw [scanLoop_leave deep step] at done
      subst done
      rcases turn_leave_cases step with ⟨_, _, _, -, left⟩ | ⟨_, -, -, same⟩ | ⟨-, same⟩ |
        ⟨-, same⟩ | ⟨-, same⟩
      · exact absurd left (body_ne_complete _ _ _ _ _ _ _)
      all_goals cases same
  | case3 st done_depth =>
      rw [scanLoop_done (Nat.eq_zero_of_not_pos done_depth)] at done
      cases done
      exact ⟨Nat.le_refl _, inside⟩

/-- A completed scan of a stored walk got past at least one value. -/
theorem scanLoop_complete_bounds (stored : st.Stored) {length : Nat}
    (done : scanLoop buf st = .complete length) : 0 < length ∧ length ≤ buf.length := by
  rcases stored.owes with ⟨owed, owes⟩
  cases step : turn buf st with
  | «continue» st' =>
      rw [scanLoop_continue stored.deep step] at done
      rcases turn_continue_cases step with ⟨finished, -⟩ | ⟨owed', marker, budget, claimed, past⟩
      · rw [owes] at finished
        cases finished
      · have arrived := (List.getElem?_eq_some_iff.1 claimed.arrived).1
        have moved := body_continue_pos past (Nat.succ_le_of_lt arrived)
        have start : (st.pastMarker owed').pos = st.pos + 1 := rfl
        have result := scanLoop_complete_pos buf st' moved.2 length done
        exact ⟨by omega, result.2⟩
  | leave outcome =>
      rw [scanLoop_leave stored.deep step] at done
      subst done
      rcases turn_leave_cases step with ⟨_, _, _, -, left⟩ | ⟨_, -, -, same⟩ | ⟨-, same⟩ |
        ⟨-, same⟩ | ⟨-, same⟩
      · exact absurd left (body_ne_complete _ _ _ _ _ _ _)
      all_goals cases same

/-- The walk a call of `scan_frame` runs on. -/
theorem stored_getD {state : Option FrameScan}
    (valid : Resumable.ValidStore FrameScan.Stored state) : (state.getD .new).Stored := by
  cases state with
  | none => exact FrameScan.new_stored
  | some walk => exact valid walk rfl

/-- **`scan_frame` is a lawful resumable scanner.** -/
theorem scanFrame_lawful : Lawful scanFrame FrameScan.Stored where
  complete_bounds valid done := scanLoop_complete_bounds (stored_getD valid) done
  complete_append {buffer state length} later valid done := by
    refine ((scanLoop_append buffer later (state.getD .new)).2 ?_).trans done
    intro walk stopped
    cases stopped.symm.trans done
  reject_append {buffer state why} later valid rejected := by
    refine ((scanLoop_append buffer later (state.getD .new)).2 ?_).trans rejected
    intro walk stopped
    cases stopped.symm.trans rejected
  incomplete_valid {buffer state walk} valid stopped :=
    (scanLoop_walking buffer _ (stored_getD valid).toWalking).1 walk stopped
  incomplete_resume {buffer state walk} later valid stopped :=
    (scanLoop_append buffer later (state.getD .new)).1 walk stopped

end Bemtvi.Rpc
