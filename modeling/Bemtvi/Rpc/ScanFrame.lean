/-
Module: Bemtvi.Rpc.ScanFrame
Purpose: `scan_frame` and its resumable state, as `bemtvi-rpc/src/lib.rs` computes them: an
  iterative walk over the buffered bytes with a fixed-size stack of values still owed, three
  budgets, and an exact undo of the one value whose bytes have not all arrived.
Trusted boundary: human-reviewed model of lib.rs:370-722
Main exports: FrameScan, charge, layout, turn, scanLoop, scanFrame, Claimed
-/
import Bemtvi.Lib.Msgpack
import Bemtvi.Lib.Resumable

namespace Bemtvi.Rpc

open Resumable (Outcome)

/-- `MAX_FRAME`: 64 MiB. -/
def maxFrame : Nat := 64 * 1024 * 1024

/-- `MAX_DEPTH`: the depth budget of one descending path. -/
def maxDepth : Nat := 128

/-- `MAX_VALUES`: the values one frame may declare. -/
def maxValues : Nat := 1 <<< 22

/-- Which budget an inbound frame broke. -/
inductive Reject where
  | values
  | depth
  | payload
deriving Repr, DecidableEq

/-- How a scan ends short of a frame: the source's `TooLarge`, or the panic of an index outside
the fixed-size `budget` / `stack` arrays. -/
inductive ScanStop where
  | tooLarge (why : Reject)
  | outOfBounds
deriving Repr, DecidableEq

/-- Resumable state of a frame scan.  The arrays are `[u64; MAX_DEPTH]`. -/
structure FrameScan where
  pos : Nat
  seen : Nat
  budget : Vector Nat maxDepth
  stack : Vector Nat maxDepth
  depth : Nat
deriving Repr, DecidableEq

/-- `FrameScan::new`: one value owed at the virtual root. -/
def FrameScan.new : FrameScan where
  pos := 0
  seen := 0
  budget := Vector.replicate maxDepth maxDepth
  stack := (Vector.replicate maxDepth 0).setIfInBounds 0 1
  depth := 1

/-- Big-endian read of `n` length bytes at `pos`, with the advanced position.  The source's
`checked_add` guards an overflow no buffer length reaches. -/
def readBe (buf : List UInt8) (pos n : Nat) : Option (Nat × Nat) :=
  if pos + n ≤ buf.length then
    some (((buf.drop pos).take n).foldl (fun acc b => acc <<< 8 ||| b.toNat) 0, pos + n)
  else none

/-- Advance `pos` past `n` payload bytes. -/
def skip (buf : List UInt8) (pos n : Nat) : Option Nat :=
  if pos + n > buf.length then none else some (pos + n)

/-- What a value needs of the depth budget it is owed at. -/
def charge (marker : UInt8) : Nat :=
  let m := marker.toNat
  if (0x90 ≤ m ∧ m ≤ 0x9f) ∨ m = 0xdc ∨ m = 0xdd ∨ (0x80 ≤ m ∧ m ≤ 0x8f) ∨ m = 0xde ∨
      m = 0xdf then 2
  else if 0xc4 ≤ m ∧ m ≤ 0xc6 then 2
  else if (0xa0 ≤ m ∧ m ≤ 0xbf) ∨ (0xd9 ≤ m ∧ m ≤ 0xdb) ∨ (0xd4 ≤ m ∧ m ≤ 0xd8) ∨
      (0xc7 ≤ m ∧ m ≤ 0xc9) then 3
  else 1

/-- What follows a marker. -/
inductive Layout where
  /-- `adv!(n)`. -/
  | fixed (n : Nat)
  /-- `let l = payload!(lenbytes!(n)); adv!(extra + l)`. -/
  | payload (n extra : Nat)
  /-- `container!(count)`. -/
  | container (count : Nat)
  /-- `container!(lenbytes!(n) * each)`. -/
  | sized (n each : Nat)
deriving Repr, DecidableEq

def Layout.isContainer : Layout → Bool
  | .container _ | .sized _ _ => true
  | .fixed _ | .payload _ _ => false

/-- The source's `match marker`. -/
def layout (marker : UInt8) : Layout :=
  let m := marker.toNat
  if m ≤ 0x7f ∨ 0xe0 ≤ m ∨ (0xc0 ≤ m ∧ m ≤ 0xc3) then .fixed 0
  else if m = 0xcc ∨ m = 0xd0 then .fixed 1
  else if m = 0xcd ∨ m = 0xd1 then .fixed 2
  else if m = 0xce ∨ m = 0xd2 ∨ m = 0xca then .fixed 4
  else if m = 0xcf ∨ m = 0xd3 ∨ m = 0xcb then .fixed 8
  else if 0xa0 ≤ m ∧ m ≤ 0xbf then .fixed (m &&& 0x1f)
  else if m = 0xd9 then .payload 1 0
  else if m = 0xda then .payload 2 0
  else if m = 0xdb then .payload 4 0
  else if m = 0xc4 then .payload 1 0
  else if m = 0xc5 then .payload 2 0
  else if m = 0xc6 then .payload 4 0
  else if 0x90 ≤ m ∧ m ≤ 0x9f then .container (m &&& 0x0f)
  else if m = 0xdc then .sized 2 1
  else if m = 0xdd then .sized 4 1
  else if 0x80 ≤ m ∧ m ≤ 0x8f then .container ((m &&& 0x0f) * 2)
  else if m = 0xde then .sized 2 2
  else if m = 0xdf then .sized 4 2
  else if m = 0xd4 then .fixed 2
  else if m = 0xd5 then .fixed 3
  else if m = 0xd6 then .fixed 5
  else if m = 0xd7 then .fixed 9
  else if m = 0xd8 then .fixed 17
  else if m = 0xc7 then .payload 1 1
  else if m = 0xc8 then .payload 2 1
  else .payload 4 1

/-- One turn of the `while` loop: go on from a state, or leave the function. -/
inductive Turn where
  | continue (st : FrameScan)
  | leave (outcome : Outcome FrameScan ScanStop)
deriving Repr, DecidableEq

/-- Reject over a broken budget. -/
def Turn.tooLarge (why : Reject) : Turn := .leave (.reject (.tooLarge why))

/-- Claim the value owed at level `d`: off its parent's count, and counted. -/
def FrameScan.claim (st : FrameScan) (d owed : Nat) : FrameScan :=
  { st with stack := st.stack.setIfInBounds d (owed - 1), seen := st.seen + 1 }

/-- Undo a claim and rewind to the value's marker (the source's `incomplete!`). -/
def FrameScan.unclaim (st : FrameScan) (d valueStart : Nat) : FrameScan :=
  { st with
    stack := st.stack.setIfInBounds d ((st.stack[d]?).getD 0 + 1)
    seen := st.seen - 1
    pos := valueStart }

/-- Push a container's declared child count as a new level (the source's `container!`).
`budget` is the budget the container itself is owed at. -/
def FrameScan.container (st : FrameScan) (budget count : Nat) : Turn :=
  if st.seen + count > maxValues then .tooLarge .values
  else if st.depth < maxDepth then
    .continue { st with
      budget := st.budget.setIfInBounds st.depth (budget - 2)
      stack := st.stack.setIfInBounds st.depth count
      depth := st.depth + 1 }
  else .leave (.reject .outOfBounds)

/-- The body of a claimed value: `st` is just past its marker at level `d`. -/
def FrameScan.body (st : FrameScan) (buf : List UInt8) (d valueStart budget : Nat) :
    Layout → Turn
  | .fixed n =>
      match skip buf st.pos n with
      | none => .leave (.incomplete (st.unclaim d valueStart))
      | some pos => .continue { st with pos := pos }
  | .payload n extra =>
      match readBe buf st.pos n with
      | none => .leave (.incomplete (st.unclaim d valueStart))
      | some (len, pos) =>
          if len > maxFrame then .tooLarge .payload
          else
            match skip buf pos (extra + len) with
            | none => .leave (.incomplete (st.unclaim d valueStart))
            | some pos => .continue { st with pos := pos }
  | .container count => st.container budget count
  | .sized n each =>
      match readBe buf st.pos n with
      | none => .leave (.incomplete (st.unclaim d valueStart))
      | some (len, pos) => { st with pos := pos }.container budget (len * each)

/-- One turn of the loop, entered with `st.depth > 0`. -/
def turn (buf : List UInt8) (st : FrameScan) : Turn :=
  let d := st.depth - 1
  match st.stack[d]? with
  | none => .leave (.reject .outOfBounds)
  | some owed =>
      if owed = 0 then .continue { st with depth := d }
      else
        let claimed := st.claim d owed
        if claimed.seen > maxValues then .tooLarge .values
        else
          match buf[st.pos]? with
          | none => .leave (.incomplete (claimed.unclaim d st.pos))
          | some marker =>
              match st.budget[d]? with
              | none => .leave (.reject .outOfBounds)
              | some budget =>
                  if budget < charge marker then .tooLarge .depth
                  else
                    { claimed with pos := st.pos + 1 }.body buf d st.pos budget (layout marker)

/-! ### What a turn can do

Everything later is derived from the two inversions below and never unfolds `turn` again: a
turn that goes on either pops a finished level or consumes one value's own bytes, and a turn
that runs out of bytes hands back exactly the state it was entered with. -/

variable {buf : List UInt8} {budget : Nat} {st st' : FrameScan}

theorem readBe_eq_some {pos n len pos' : Nat} (read : readBe buf pos n = some (len, pos')) :
    pos + n ≤ buf.length ∧ pos' = pos + n := by
  unfold readBe at read
  split at read
  · next fits =>
      simp only [Option.some.injEq, Prod.mk.injEq] at read
      exact ⟨fits, read.2.symm⟩
  · cases read

theorem skip_eq_some {pos n pos' : Nat} (skipped : skip buf pos n = some pos') :
    pos + n ≤ buf.length ∧ pos' = pos + n := by
  unfold skip at skipped
  split at skipped
  · cases skipped
  · next fits =>
      cases skipped
      exact ⟨Nat.not_lt.1 fits, rfl⟩

/-- Pushing a level moves neither the position nor the count. -/
theorem container_continue {count : Nat} (step : st.container budget count = .continue st') :
    st.seen + count ≤ maxValues ∧ st.depth < maxDepth ∧
      st' = { st with
        budget := st.budget.setIfInBounds st.depth (budget - 2)
        stack := st.stack.setIfInBounds st.depth count
        depth := st.depth + 1 } := by
  unfold FrameScan.container at step
  split at step
  · cases step
  · next room =>
      split at step
      · next shallow =>
          cases step
          exact ⟨Nat.not_lt.1 room, shallow, rfl⟩
      · cases step

theorem container_ne_incomplete (st walk : FrameScan) (budget count : Nat) :
    st.container budget count ≠ .leave (.incomplete walk) := by
  intro step
  unfold FrameScan.container at step
  split at step
  · cases step
  · split at step <;> cases step

/-- Only the loop's own condition completes a frame. -/
theorem body_ne_complete (buf : List UInt8) (st : FrameScan) (d valueStart budget length : Nat)
    (shape : Layout) : st.body buf d valueStart budget shape ≠ .leave (.complete length) := by
  intro step
  cases shape with
  | fixed n =>
      simp only [FrameScan.body] at step
      split at step <;> cases step
  | payload n extra =>
      simp only [FrameScan.body] at step
      split at step
      · cases step
      · split at step
        · cases step
        · split at step <;> cases step
  | container count =>
      simp only [FrameScan.body, FrameScan.container] at step
      split at step
      · cases step
      · split at step <;> cases step
  | sized n each =>
      simp only [FrameScan.body, FrameScan.container] at step
      split at step
      · cases step
      · split at step
        · cases step
        · split at step <;> cases step

/-- A value's body never moves the position back, and never past the buffer. -/
theorem body_continue_pos {d valueStart : Nat} {shape : Layout}
    (step : st.body buf d valueStart budget shape = .continue st') (inside : st.pos ≤ buf.length) :
    st.pos ≤ st'.pos ∧ st'.pos ≤ buf.length := by
  cases shape with
  | fixed n =>
      simp only [FrameScan.body] at step
      split at step
      · cases step
      · next pos skipped =>
          cases step
          have bounds := skip_eq_some skipped
          exact ⟨by simp only; omega, by simp only; omega⟩
  | payload n extra =>
      simp only [FrameScan.body] at step
      split at step
      · cases step
      · next len pos read =>
          have bounds := readBe_eq_some read
          split at step
          · cases step
          · split at step
            · cases step
            · next pos' skipped =>
                cases step
                have bounds' := skip_eq_some skipped
                exact ⟨by simp only; omega, by simp only; omega⟩
  | container count =>
      rcases container_continue step with ⟨-, -, rfl⟩
      exact ⟨Nat.le_refl _, inside⟩
  | sized n each =>
      simp only [FrameScan.body] at step
      split at step
      · cases step
      · next len pos read =>
          have bounds := readBe_eq_some read
          rcases container_continue step with ⟨-, -, rfl⟩
          exact ⟨by simp only; omega, by simp only; omega⟩

/-- Out of bytes, a value's body undoes exactly its own claim. -/
theorem body_incomplete {walk : FrameScan} {d valueStart : Nat} {shape : Layout}
    (step : st.body buf d valueStart budget shape = .leave (.incomplete walk)) :
    walk = st.unclaim d valueStart := by
  cases shape with
  | fixed n =>
      simp only [FrameScan.body] at step
      split at step <;> cases step
      rfl
  | payload n extra =>
      simp only [FrameScan.body] at step
      split at step
      · cases step
        rfl
      · split at step
        · cases step
        · split at step <;> cases step
          rfl
  | container count => exact absurd step (container_ne_incomplete _ _ _ _)
  | sized n each =>
      simp only [FrameScan.body] at step
      split at step
      · cases step
        rfl
      · exact absurd step (container_ne_incomplete _ _ _ _)

/-- A claimed value: where its marker stands and which budget it runs on. -/
structure Claimed (buf : List UInt8) (st : FrameScan) (owed : Nat) (marker : UInt8)
    (budget : Nat) : Prop where
  owes : st.stack[st.depth - 1]? = some (owed + 1)
  counted : st.seen + 1 ≤ maxValues
  arrived : buf[st.pos]? = some marker
  budgeted : st.budget[st.depth - 1]? = some budget
  affords : charge marker ≤ budget

/-- The state just past a claimed value's marker. -/
def FrameScan.pastMarker (st : FrameScan) (owed : Nat) : FrameScan :=
  { st.claim (st.depth - 1) (owed + 1) with pos := st.pos + 1 }

/-- A turn over a claimed value is the value's body. -/
theorem turn_claimed {owed : Nat} {marker : UInt8} (claimed : Claimed buf st owed marker budget) :
    turn buf st =
      (st.pastMarker owed).body buf (st.depth - 1) st.pos budget (layout marker) := by
  have counted : ¬ (st.claim (st.depth - 1) (owed + 1)).seen > maxValues :=
    Nat.not_lt.2 claimed.counted
  have affords : ¬ budget < charge marker := Nat.not_lt.2 claimed.affords
  simp only [turn, claimed.owes, Nat.add_eq_zero_iff, one_ne_zero, and_false, if_false, counted,
    claimed.arrived, claimed.budgeted, affords]
  rfl

/-- A turn over a finished level pops it. -/
theorem turn_pop (finished : st.stack[st.depth - 1]? = some 0) :
    turn buf st = .continue { st with depth := st.depth - 1 } := by
  simp only [turn, finished, if_true]

/-- **Inversion of a turn.** -/
theorem turn_cases (buf : List UInt8) (st : FrameScan) :
    (st.stack[st.depth - 1]? = some 0 ∧
      turn buf st = .continue { st with depth := st.depth - 1 }) ∨
    (∃ owed marker budget, Claimed buf st owed marker budget) ∨
    (∃ owed, st.stack[st.depth - 1]? = some (owed + 1) ∧ st.seen + 1 ≤ maxValues ∧
      buf[st.pos]? = none ∧
      turn buf st =
        .leave (.incomplete ((st.claim (st.depth - 1) (owed + 1)).unclaim (st.depth - 1) st.pos))) ∨
    (∃ owed, st.stack[st.depth - 1]? = some (owed + 1) ∧ maxValues < st.seen + 1 ∧
      ∀ later, turn (buf ++ later) st = .tooLarge .values) ∨
    (∃ owed marker budget, st.stack[st.depth - 1]? = some (owed + 1) ∧
      st.seen + 1 ≤ maxValues ∧ buf[st.pos]? = some marker ∧
      st.budget[st.depth - 1]? = some budget ∧ budget < charge marker ∧
      ∀ later, turn (buf ++ later) st = .tooLarge .depth) ∨
    ((st.stack[st.depth - 1]? = none ∨ st.budget[st.depth - 1]? = none) ∧
      ∀ later, turn (buf ++ later) st = .leave (.reject .outOfBounds)) := by
  cases stacked : st.stack[st.depth - 1]? with
  | none =>
      refine Or.inr (Or.inr (Or.inr (Or.inr (Or.inr ⟨Or.inl rfl, ?_⟩))))
      intro later
      simp only [turn, stacked]
  | some count =>
      cases count with
      | zero => exact Or.inl ⟨rfl, turn_pop stacked⟩
      | succ owed =>
          have claimable : ¬ owed + 1 = 0 := Nat.succ_ne_zero owed
          by_cases counted : st.seen + 1 ≤ maxValues
          · have room : ¬ (st.claim (st.depth - 1) (owed + 1)).seen > maxValues :=
              Nat.not_lt.2 counted
            cases arrived : buf[st.pos]? with
            | none =>
                refine Or.inr (Or.inr (Or.inl ⟨owed, rfl, counted, rfl, ?_⟩))
                simp only [turn, stacked, claimable, if_false, room, arrived]
            | some marker =>
                have later_arrived : ∀ later : List UInt8,
                    (buf ++ later)[st.pos]? = some marker := by
                  intro later
                  rw [List.getElem?_append_left (List.getElem?_eq_some_iff.1 arrived).1, arrived]
                cases budgeted : st.budget[st.depth - 1]? with
                | none =>
                    refine Or.inr (Or.inr (Or.inr (Or.inr (Or.inr ⟨Or.inr rfl, ?_⟩))))
                    intro later
                    simp only [turn, stacked, claimable, if_false, room, later_arrived later,
                      budgeted]
                | some budget =>
                    by_cases affords : charge marker ≤ budget
                    · exact Or.inr (Or.inl ⟨owed, marker, budget,
                        ⟨stacked, counted, arrived, budgeted, affords⟩⟩)
                    · refine Or.inr (Or.inr (Or.inr (Or.inr (Or.inl
                        ⟨owed, marker, budget, rfl, counted, rfl, rfl, Nat.not_le.1 affords,
                          ?_⟩))))
                      intro later
                      simp only [turn, stacked, claimable, if_false, room, later_arrived later,
                        budgeted, Nat.not_le.1 affords, if_true]
          · refine Or.inr (Or.inr (Or.inr (Or.inl ⟨owed, rfl, Nat.not_le.1 counted, ?_⟩)))
            intro later
            have full : (st.claim (st.depth - 1) (owed + 1)).seen > maxValues :=
              Nat.not_le.1 counted
            simp only [turn, stacked, claimable, if_false, full, if_true]

/-- A turn that goes on pops a finished level or gets past one value's own bytes. -/
theorem turn_continue_cases (step : turn buf st = .continue st') :
    (st.stack[st.depth - 1]? = some 0 ∧ st' = { st with depth := st.depth - 1 }) ∨
      ∃ owed marker budget, Claimed buf st owed marker budget ∧
        (st.pastMarker owed).body buf (st.depth - 1) st.pos budget (layout marker) =
          .continue st' := by
  rcases turn_cases buf st with ⟨finished, pop⟩ | ⟨owed, marker, budget, claimed⟩ |
    ⟨_, -, -, -, starved⟩ | ⟨_, -, -, full⟩ | ⟨_, _, _, -, -, -, -, -, full⟩ | ⟨-, broken⟩
  · rw [pop] at step
    cases step
    exact Or.inl ⟨finished, rfl⟩
  · rw [turn_claimed claimed] at step
    exact Or.inr ⟨owed, marker, budget, claimed, step⟩
  · rw [starved] at step
    cases step
  all_goals
    -- A rejected turn is rejected on every longer buffer, this one included.
    first
    | have same := full []
      rw [List.append_nil, step] at same
      cases same
    | have same := broken []
      rw [List.append_nil, step] at same
      cases same

/-- A turn that leaves does so in a value's body, for want of its marker, or over a budget. -/
theorem turn_leave_cases {outcome : Outcome FrameScan ScanStop}
    (step : turn buf st = .leave outcome) :
    (∃ owed marker budget, Claimed buf st owed marker budget ∧
      (st.pastMarker owed).body buf (st.depth - 1) st.pos budget (layout marker) =
        .leave outcome) ∨
    (∃ owed, st.stack[st.depth - 1]? = some (owed + 1) ∧ buf[st.pos]? = none ∧
      outcome =
        .incomplete ((st.claim (st.depth - 1) (owed + 1)).unclaim (st.depth - 1) st.pos)) ∨
    ((∃ owed, st.stack[st.depth - 1]? = some (owed + 1) ∧ maxValues < st.seen + 1) ∧
      outcome = .reject (.tooLarge .values)) ∨
    ((∃ owed marker budget, st.stack[st.depth - 1]? = some (owed + 1) ∧
        buf[st.pos]? = some marker ∧ st.budget[st.depth - 1]? = some budget ∧
        budget < charge marker) ∧
      outcome = .reject (.tooLarge .depth)) ∨
    ((st.stack[st.depth - 1]? = none ∨ st.budget[st.depth - 1]? = none) ∧
      outcome = .reject .outOfBounds) := by
  rcases turn_cases buf st with ⟨-, pop⟩ | ⟨owed, marker, budget, claimed⟩ |
    ⟨owed, owes, -, starved, left⟩ | ⟨owed, owes, room, full⟩ |
    ⟨owed, marker, budget, owes, -, arrived, budgeted, poor, full⟩ | ⟨missing, broken⟩
  · rw [pop] at step
    cases step
  · rw [turn_claimed claimed] at step
    exact Or.inl ⟨owed, marker, budget, claimed, step⟩
  · rw [left] at step
    cases step
    exact Or.inr (Or.inl ⟨owed, owes, starved, rfl⟩)
  · have same := full []
    rw [List.append_nil, step] at same
    cases same
    exact Or.inr (Or.inr (Or.inl ⟨⟨owed, owes, room⟩, rfl⟩))
  · have same := full []
    rw [List.append_nil, step] at same
    cases same
    exact Or.inr (Or.inr (Or.inr (Or.inl
      ⟨⟨owed, marker, budget, owes, arrived, budgeted, poor⟩, rfl⟩)))
  · have same := broken []
    rw [List.append_nil, step] at same
    cases same
    exact Or.inr (Or.inr (Or.inr (Or.inr ⟨missing, rfl⟩)))

/-- Going on consumes bytes or pops a level. -/
theorem turn_decreases (deep : 0 < st.depth) (step : turn buf st = .continue st') :
    Prod.Lex (· < ·) (· < ·) (buf.length - st'.pos, st'.depth) (buf.length - st.pos, st.depth) := by
  rcases turn_continue_cases step with ⟨-, rfl⟩ | ⟨owed, marker, budget, claimed, past⟩
  · exact Prod.Lex.right _ (Nat.sub_lt deep Nat.one_pos)
  · have arrived := (List.getElem?_eq_some_iff.1 claimed.arrived).1
    have moved := body_continue_pos past (Nat.succ_le_of_lt arrived)
    have start : (st.pastMarker owed).pos = st.pos + 1 := rfl
    apply Prod.Lex.left
    omega

/-- The `while` loop of `scan_frame`. -/
def scanLoop (buf : List UInt8) (st : FrameScan) : Outcome FrameScan ScanStop :=
  if _deep : 0 < st.depth then
    match _step : turn buf st with
    | .continue st' => scanLoop buf st'
    | .leave outcome => outcome
  else .complete st.pos
termination_by (buf.length - st.pos, st.depth)
decreasing_by exact turn_decreases _deep _step

/-- `scan_frame`: resume the stored walk, or start a fresh one. -/
def scanFrame (buf : List UInt8) (state : Option FrameScan) : Outcome FrameScan ScanStop :=
  scanLoop buf (state.getD .new)

end Bemtvi.Rpc
