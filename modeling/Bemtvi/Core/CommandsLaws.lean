/-
Module: Bemtvi.Core.CommandsLaws
Purpose: Counts in the grammar: two runs of one command's keys from different counts resolve to the same
  command, and a repeat's count takes the place of the one that was typed.
Trusted boundary: none
Main exports: Alike, StepAlike, parseStep_alike, Plain, feed_alike, repeat_counts
-/
import Bemtvi.Core.Commands
import Bemtvi.Core.CountsLaws

namespace Bemtvi.Core.Commands

open Bemtvi.Input (Key KeyCode)
open Bemtvi.Core.Counts (accumulate typed spelled maxCount usizeMax)

/-! ### Runs alike but for their counts -/

/-- A command without the count that it carries. -/
def NormalCmd.uncounted : NormalCmd → NormalCmd
  | .viewScroll key _ => .viewScroll key none
  | .gotoByte _ => .gotoByte none
  | .tabNext _ => .tabNext none
  | .tabPrev _ => .tabPrev none
  | cmd => cmd

def Command.uncounted : Command → Command
  | .normal cmd => .normal cmd.uncounted
  | cmd => cmd

/-- The same is pending, but for the counts. -/
structure Alike (p p' : PendingCommand) : Prop where
  operator : p'.operator = p.operator
  register : p'.register = p.register
  stage : p'.stage = p.stage

/-- What a step does alike: it keeps the counts, or an operator begins. -/
inductive StepAlike (p p' : PendingCommand) : ParseStep → ParseStep → Prop where
  | complete (cmd cmd' : Command) (same : cmd'.uncounted = cmd.uncounted) :
      StepAlike p p' (.complete cmd) (.complete cmd')
  | stage (stage : Stage) : StepAlike p p' (.continues { p with stage := stage })
      (.continues { p' with stage := stage })
  | register (name : Char) : StepAlike p p' (.continues { p with register := some name, stage := .start })
      (.continues { p' with register := some name, stage := .start })
  | armed (op : Char) : StepAlike p p' (.continues (p.arm op)) (.continues (p'.arm op))
  | reset : StepAlike p p' .reset .reset
  | refuse : StepAlike p p' .refuse .refuse
  | cancel : StepAlike p p' .cancel .cancel
  | abortObject : StepAlike p p' .abortObject .abortObject

section
variable {p p' : PendingCommand} {key : Key}

theorem StepAlike.same (cmd : Command) : StepAlike p p' (.complete cmd) (.complete cmd) :=
  .complete cmd cmd rfl

theorem gCommand_alike (alike : Alike p p') (c : Char) :
    Option.Rel (StepAlike p p') (gCommand p c) (gCommand p' c) := by
  obtain ⟨count, opCount, operator, register, stage⟩ := p
  obtain ⟨count', opCount', operator', register', stage'⟩ := p'
  obtain ⟨rfl, rfl, rfl⟩ := alike
  have uniform : ∀ f : PendingCommand → Option ParseStep, f = (gCommand · c) →
      Option.Rel (StepAlike ⟨count, opCount, operator', register', stage'⟩
        ⟨count', opCount', operator', register', stage'⟩)
        (f ⟨count, opCount, operator', register', stage'⟩)
        (f ⟨count', opCount', operator', register', stage'⟩) := by
    rintro f whole
    unfold gCommand at whole
    split at whole <;> subst whole <;> dsimp only
    all_goals try exact .some (.same _)
    all_goals try exact .some (.complete _ _ rfl)
    all_goals try exact .some (.stage _)
    all_goals try exact .some (.armed _)
    all_goals try (split <;> first | exact .some (.complete _ _ rfl) | exact .none | exact .some .refuse)
    generalize caseOpForKey _ = found
    cases found with
    | none => exact .none
    | some op =>
        simp only [Option.map_some]
        split
        · exact .some (.same _)
        · exact .some (.armed op)
  exact uniform _ rfl

theorem argument_alike (tables : Tables) (alike : Alike p p') :
    Option.Rel (StepAlike p p') (argument tables p key) (argument tables p' key) := by
  obtain ⟨count, opCount, operator, register, stage⟩ := p
  obtain ⟨count', opCount', operator', register', stage'⟩ := p'
  obtain ⟨rfl, rfl, rfl⟩ := alike
  by_cases escape : key.code = .esc
  · cases stage'
    all_goals simp only [argument, escape, if_true]
    all_goals first | exact .none | exact .some .cancel | skip
    cases asChar key with
    | none => exact .some .reset
    | some c => exact .some (.same _)
  · cases stage'
    all_goals simp only [argument, escape, if_false]
    case start => exact .none
    case gPending => exact .none
    case zPending =>
      refine .some ?_
      cases asChar key with
      | none =>
          simp only
          split
          · exact .complete _ _ rfl
          · exact .reset
      | some c =>
          by_cases arms : c = 'f'
          · subst arms
            exact .armed foldOp
          · simp only
            split
            · exact .same _
            · split
              · exact .complete _ _ rfl
              · exact .reset
    case registerPending =>
      refine .some ?_
      cases asChar key with
      | none => exact .reset
      | some c =>
          by_cases computed : c = '='
          · subst computed
            exact .same _
          · simp only
            split
            · exact .register c
            · exact .reset
    case windowPending =>
      refine .some ?_
      split
      · exact .stage _
      · split
        · exact .same _
        · exact .reset
    case windowLayerPending =>
      refine .some ?_
      split
      · exact .same _
      · exact .reset
    case playPending =>
      refine .some ?_
      split
      · exact .same _
      · cases asChar key with
        | none => exact .reset
        | some c =>
            simp only [Option.elim_some]
            split
            · exact .same _
            · exact .reset
    all_goals
      refine .some ?_
      cases asChar key with
      | none => first | exact .reset | exact .abortObject
      | some c =>
          simp only [Option.elim_some]
          first
            | exact .same _
            | split
              · exact .same _
              · exact .reset

theorem parseCommand_alike (alike : Alike p p') (gpending : Bool) :
    StepAlike p p' (parseCommand p gpending key) (parseCommand p' gpending key) := by
  obtain ⟨count, opCount, operator, register, stage⟩ := p
  obtain ⟨count', opCount', operator', register', stage'⟩ := p'
  obtain ⟨rfl, rfl, rfl⟩ := alike
  rw [parseCommand, parseCommand]
  cases operator' with
  | some op =>
      simp only [operatorCommand]
      cases asChar key with
      | none =>
          simp only
          split
          · exact .same _
          · exact .reset
      | some c =>
          simp only
          repeat' split
          all_goals first | exact .same _ | exact .reset
  | none =>
      simp only
      split
      · have uniform : ∀ f : PendingCommand → ParseStep, f = (ctrlCommand · key) →
            StepAlike ⟨count, opCount, none, register', stage'⟩ ⟨count', opCount', none, register', stage'⟩
              (f ⟨count, opCount, none, register', stage'⟩) (f ⟨count', opCount', none, register', stage'⟩) := by
          rintro f whole
          unfold ctrlCommand at whole
          split at whole <;> subst whole <;> dsimp only
          all_goals first | exact .same _ | exact .stage _ | skip
          split
          · exact .same _
          · exact .reset
        exact uniform _ rfl
      · repeat' split
        all_goals first | exact .same _ | exact .reset | exact .armed _ | exact .stage _ | skip
        cases singleCommand gpending _ with
        | none => exact .reset
        | some cmd => exact .same cmd

/-- **Commands of one key go alike from different counts.** -/
theorem command_alike (alike : Alike p p') : StepAlike p p' (command p key) (command p' key) := by
  have behind := fun c => gCommand_alike alike c
  have rest := fun gpending => @parseCommand_alike p p' key alike gpending
  obtain ⟨count, opCount, operator, register, stage⟩ := p
  obtain ⟨count', opCount', operator', register', stage'⟩ := p'
  obtain ⟨rfl, rfl, rfl⟩ := alike
  have table : Option.Rel (StepAlike ⟨count, opCount, operator', register', stage'⟩
        ⟨count', opCount', operator', register', stage'⟩)
      (if (stage' == .gPending) = true then
        (asChar key).bind (gCommand ⟨count, opCount, operator', register', stage'⟩) else none)
      (if (stage' == .gPending) = true then
        (asChar key).bind (gCommand ⟨count', opCount', operator', register', stage'⟩) else none) := by
    split
    · cases asChar key with
      | none => exact .none
      | some c => exact behind c
    · exact .none
  unfold command
  dsimp only
  revert table
  generalize (if (!stage' == .gPending && operator'.isNone) = true then boundaryStage key else none) = boundary
  generalize (if (stage' == .gPending) = true then none else classifyMotion key) = motion
  generalize (asChar key).bind findKind = find
  generalize (if (stage' == .gPending) = true then
    (asChar key).bind (gCommand ⟨count, opCount, operator', register', stage'⟩) else none) = found
  generalize (if (stage' == .gPending) = true then
    (asChar key).bind (gCommand ⟨count', opCount', operator', register', stage'⟩) else none) = found'
  intro table
  cases boundary with
  | some boundary => exact .stage boundary
  | none =>
      cases table with
      | some same => exact same
      | none =>
          cases find
          all_goals cases motion
          all_goals dsimp only
          all_goals repeat' split
          all_goals first | exact .same _ | exact .refuse | exact .stage _ | exact rest _

/-- **A step goes alike from different counts, where its key counts in neither.** -/
theorem parseStep_alike (tables : Tables) (alike : Alike p p')
    (no_count : argument tables p key = none → (asChar key).bind (accumulate p.count) = none ∧
      (asChar key).bind (accumulate p'.count) = none) :
    StepAlike p p' (parseStep tables p key) (parseStep tables p' key) := by
  have taken := @argument_alike p p' key tables alike
  rw [parseStep, parseStep]
  revert taken no_count
  generalize argument tables p key = found
  generalize argument tables p' key = found'
  intro no_count taken
  cases taken with
  | some same => exact same
  | none =>
      obtain ⟨none_here, none_there⟩ := no_count rfl
      simp only [none_here, none_there]
      split
      · exact .cancel
      · exact command_alike alike

end

/-! ### Runs -/

/-- Keys behind the count at the front: no digit counts among them, a `0` is at most the motion of an operator,
and no operator begins behind another. -/
def Plain (tables : Tables) (zero : Bool) : PendingCommand → List Key → Prop
  | _, [] => True
  | p, key :: keys =>
      (argument tables p key = none → ∀ c, asChar key = some c → c.isDigit = true →
        c = '0' ∧ zero = true ∧ p.operator.isSome = true) ∧
      ∀ next, parseStep tables p key = .continues next →
        (p.operator.isSome = true → next.stage ≠ .start) ∧ Plain tables zero next keys

/-- The counts stay. -/
def Kept (p q : PendingCommand) : Prop :=
  q.operator = p.operator ∧ q.count = p.count ∧ q.opCount = p.opCount

/-- An operator began: the count stands before it. -/
def Moved (p q : PendingCommand) : Prop :=
  p.operator = none ∧ q.operator.isSome = true ∧ q.count = none ∧ q.opCount = p.count

/-- Two runs that do the same to their counts. -/
def Together (p p' q q' : PendingCommand) : Prop :=
  (Kept p q ∧ Kept p' q') ∨ (Moved p q ∧ Moved p' q')

theorem Kept.refl (p : PendingCommand) : Kept p p := ⟨rfl, rfl, rfl⟩

variable {q r q' : PendingCommand} {c : Char} {count : Option Nat} {n : Nat} {cmd : Command}
  {keys rest : List Key}

theorem Kept.trans {p : PendingCommand} (first : Kept p q) (second : Kept q r) : Kept p r :=
  ⟨second.1.trans first.1, second.2.1.trans first.2.1, second.2.2.trans first.2.2⟩

theorem Kept.moved {p : PendingCommand} (first : Kept p q) (second : Moved q r) : Moved p r :=
  ⟨first.1 ▸ second.1, second.2.1, second.2.2.1, second.2.2.2.trans first.2.1⟩

theorem Moved.kept {p : PendingCommand} (first : Moved p q) (second : Kept q r) : Moved p r := by
  obtain ⟨fresh, begun, no_count, before⟩ := first
  obtain ⟨operator, count, opCount⟩ := second
  exact ⟨fresh, operator ▸ begun, count.trans no_count, opCount.trans before⟩

theorem Together.trans {p p' r' : PendingCommand} (first : Together p p' q q')
    (second : Together q q' r r') : Together p p' r r' := by
  rcases first with ⟨kept, kept'⟩ | ⟨moved, moved'⟩
  · rcases second with ⟨kept₂, kept₂'⟩ | ⟨moved₂, moved₂'⟩
    · exact Or.inl ⟨kept.trans kept₂, kept'.trans kept₂'⟩
    · exact Or.inr ⟨kept.moved moved₂, kept'.moved moved₂'⟩
  · rcases second with ⟨kept₂, kept₂'⟩ | ⟨moved₂, moved₂'⟩
    · exact Or.inr ⟨moved.kept kept₂, moved'.kept kept₂'⟩
    · have begun := moved.2.1
      rw [moved₂.1] at begun
      cases begun

theorem accumulate_other (other : c.isDigit = false) : accumulate count c = none := by
  rw [accumulate, other, Bool.false_and]
  rfl

section
variable {tables : Tables} {zero : Bool} {p p' : PendingCommand} {key : Key} {keys : List Key}

/-- A plain key goes alike from different counts. -/
theorem Plain.step (alike : Alike p p') (plain : Plain tables zero p (key :: keys))
    (none_typed : zero = true → p.operator.isSome = true → p.count = none ∧ p'.count = none) :
    StepAlike p p' (parseStep tables p key) (parseStep tables p' key) := by
  refine parseStep_alike tables alike fun boundary => ?_
  cases char : asChar key with
  | none => exact ⟨rfl, rfl⟩
  | some c =>
      simp only [Option.bind_some]
      cases digit : c.isDigit with
      | false => exact ⟨accumulate_other digit, accumulate_other digit⟩
      | true =>
          obtain ⟨rfl, allowed, operator⟩ := plain.1 boundary c char digit
          obtain ⟨none_here, none_there⟩ := none_typed allowed operator
          rw [none_here, none_there]
          exact ⟨rfl, rfl⟩

/-- A plain key that completes nothing: the rest is plain, and the counts go together. -/
theorem Plain.continues (alike : Alike p p') (plain : Plain tables zero p (key :: keys))
    (none_typed : zero = true → p.operator.isSome = true → p.count = none ∧ p'.count = none)
    {next : PendingCommand} (stepped : parseStep tables p key = .continues next) :
    ∃ next', parseStep tables p' key = .continues next' ∧ Alike next next' ∧ Plain tables zero next keys ∧
      (zero = true → next.operator.isSome = true → next.count = none ∧ next'.count = none) ∧
      Together p p' next next' := by
  have same := plain.step alike none_typed
  obtain ⟨one_operator, rest⟩ := plain.2 next stepped
  rw [stepped] at same
  revert same
  generalize parseStep tables p' key = step'
  intro same
  cases same with
  | stage stage =>
      exact ⟨_, rfl, ⟨alike.operator, alike.register, rfl⟩, rest, none_typed,
        Or.inl ⟨⟨rfl, rfl, rfl⟩, ⟨rfl, rfl, rfl⟩⟩⟩
  | register name =>
      exact ⟨_, rfl, ⟨alike.operator, rfl, rfl⟩, rest, none_typed, Or.inl ⟨⟨rfl, rfl, rfl⟩, ⟨rfl, rfl, rfl⟩⟩⟩
  | armed op =>
      have fresh : p.operator = none := by
        cases started : p.operator with
        | none => rfl
        | some op' => exact absurd rfl (one_operator (by rw [started]; rfl))
      have fresh' : p'.operator = none := alike.operator.trans fresh
      exact ⟨_, rfl, ⟨rfl, alike.register, rfl⟩, rest, fun _ _ => ⟨rfl, rfl⟩,
        Or.inr ⟨⟨fresh, rfl, rfl, rfl⟩, ⟨fresh', rfl, rfl, rfl⟩⟩⟩

/-- **A command's keys go alike from different counts.** -/
theorem feed_alike {cmd : Command} {q : PendingCommand} {rest : List Key} (alike : Alike p p')
    (plain : Plain tables zero p keys)
    (none_typed : zero = true → p.operator.isSome = true → p.count = none ∧ p'.count = none)
    (fed : feed tables p keys = some (cmd, q, rest)) :
    ∃ cmd' q', feed tables p' keys = some (cmd', q', rest) ∧ cmd'.uncounted = cmd.uncounted ∧
      Alike q q' ∧ Together p p' q q' := by
  induction keys generalizing p p' with
  | nil => cases fed
  | cons key keys ih =>
      rw [feed] at fed
      cases stepped : parseStep tables p key with
      | complete found =>
          have same := plain.step alike none_typed
          rw [stepped] at same fed
          cases fed
          rw [feed]
          revert same
          generalize parseStep tables p' key = step'
          intro same
          cases same with
          | complete cmd cmd' same =>
              exact ⟨cmd', p', rfl, same, alike, Or.inl ⟨Kept.refl _, Kept.refl _⟩⟩
      | continues next =>
          rw [stepped] at fed
          obtain ⟨next', stepped', alike', plain', none_typed', together⟩ :=
            plain.continues alike none_typed stepped
          obtain ⟨cmd', q', fed', same, alike'', together'⟩ := ih alike' plain' none_typed' fed
          refine ⟨cmd', q', ?_, same, alike'', together.trans together'⟩
          rw [feed, stepped']
          exact fed'
      | reset | refuse | cancel | abortObject =>
          rw [stepped] at fed
          cases fed

/-- The keys before a command's end go alike from different counts. -/
theorem after_alike {q : PendingCommand} (alike : Alike p p') (plain : Plain tables zero p keys)
    (none_typed : zero = true → p.operator.isSome = true → p.count = none ∧ p'.count = none)
    (done : after tables p keys = some q) :
    ∃ q', after tables p' keys = some q' ∧ Alike q q' ∧ Together p p' q q' := by
  induction keys generalizing p p' with
  | nil =>
      cases done
      exact ⟨p', rfl, alike, Or.inl ⟨Kept.refl _, Kept.refl _⟩⟩
  | cons key keys ih =>
      rw [after] at done
      cases stepped : parseStep tables p key with
      | continues next =>
          rw [stepped] at done
          obtain ⟨next', stepped', alike', plain', none_typed', together⟩ :=
            plain.continues alike none_typed stepped
          obtain ⟨q', done', alike'', together'⟩ := ih alike' plain' none_typed' done
          refine ⟨q', ?_, alike'', together.trans together'⟩
          rw [after, stepped']
          exact done'
      | _ =>
          rw [stepped] at done
          cases done

theorem feed_after {q : PendingCommand} (done : after tables p keys = some q) (rest : List Key) :
    feed tables p (keys ++ rest) = feed tables q rest := by
  induction keys generalizing p with
  | nil =>
      cases done
      rfl
  | cons key keys ih =>
      rw [after] at done
      rw [List.cons_append, feed]
      cases stepped : parseStep tables p key with
      | continues next =>
          rw [stepped] at done
          exact ih done
      | _ =>
          rw [stepped] at done
          cases done

end

/-! ### Digits -/

/-- A digit at a command boundary counts. -/
theorem parseStep_digit (tables : Tables) {p : PendingCommand} (start : p.stage = .start)
    {key : Key} {count : Nat} (char : asChar key = some c)
    (counts : accumulate p.count c = some count) :
    parseStep tables p key = .continues { p with count := some count } := by
  have no_argument : argument tables p key = none := by rw [argument, start]
  have no_escape : key.code ≠ .esc := by
    intro escape
    rw [asChar, escape] at char
    cases char
  rw [parseStep, no_argument]
  simp only [no_escape, if_false, char, Option.bind_some, counts]

theorem accumulate_digit (digit : c.isDigit = true) (leads : count.isSome = true ∨ c ≠ '0') :
    ∃ n, accumulate count c = some n := by
  have counted : (c.isDigit && !(c == '0' && count.isNone)) = true := by
    rw [digit, Bool.true_and]
    rcases leads with some_count | other
    · obtain ⟨n, rfl⟩ := Option.isSome_iff_exists.1 some_count
      simp
    · simp [other]
  exact ⟨_, by rw [accumulate, if_pos counted]⟩

/-- **Digits at a command boundary make its count.** -/
theorem feed_digits (tables : Tables) {digits : List Key} {p : PendingCommand} (start : p.stage = .start)
    (all : ∀ key ∈ digits, ∃ c, asChar key = some c ∧ c.isDigit = true)
    (leads : p.count.isSome = true ∨ digits.head?.bind asChar ≠ some '0') (tail : List Key) :
    feed tables p (digits ++ tail) =
        feed tables { p with count := typed p.count (digits.filterMap asChar) } tail ∧
      (p.count.isSome = true ∨ digits ≠ [] → (typed p.count (digits.filterMap asChar)).isSome = true) := by
  induction digits generalizing p with
  | nil => exact ⟨rfl, fun some_count => some_count.resolve_right fun absent => absent rfl⟩
  | cons key digits ih =>
      obtain ⟨c, char, digit⟩ := all key (List.mem_cons_self ..)
      have lead : p.count.isSome = true ∨ c ≠ '0' := by
        refine leads.imp_right fun other same => other ?_
        rw [List.head?_cons, Option.bind_some, char, same]
      obtain ⟨n, counts⟩ := accumulate_digit digit lead
      obtain ⟨rest, counted⟩ := @ih { p with count := some n } start
        (fun key' member => all key' (List.mem_cons_of_mem key member)) (Or.inl rfl)
      have whole : typed p.count ((key :: digits).filterMap asChar) =
          typed (some n) (digits.filterMap asChar) := by
        rw [List.filterMap_cons, char]
        simp only [typed, counts]
      rw [whole]
      refine ⟨?_, fun _ => counted (Or.inl rfl)⟩
      rw [List.cons_append, feed, parseStep_digit tables start char counts]
      exact rest

/-- The count at the front of a command's keys, and the keys behind it. -/
theorem leading_spec (keys : List Key) :
    keys = keys.take (leadingCountLen keys) ++ keys.drop (leadingCountLen keys) ∧
      (∀ key ∈ keys.take (leadingCountLen keys), ∃ c, asChar key = some c ∧ c.isDigit = true) ∧
      (keys.take (leadingCountLen keys)).head?.bind asChar ≠ some '0' := by
  refine ⟨(List.take_append_drop _ keys).symm, ?_⟩
  rw [leadingCountLen]
  split
  · rw [List.take_zero]
    exact ⟨List.forall_mem_nil _, by simp⟩
  · next other =>
      have digits : keys.take (keys.takeWhile fun key => (asChar key).any Char.isDigit).length =
          keys.takeWhile fun key => (asChar key).any Char.isDigit := by
        conv_lhs =>
          enter [2]
          rw [← List.takeWhile_append_dropWhile (p := fun key => (asChar key).any Char.isDigit) (l := keys)]
        rw [List.take_left]
      rw [digits]
      refine ⟨fun key member => ?_, other⟩
      have digit := List.mem_takeWhile_imp member
      cases char : asChar key with
      | none =>
          rw [char] at digit
          cases digit
      | some c =>
          rw [char] at digit
          exact ⟨c, rfl, digit⟩

theorem asChar_char (c : Char) : asChar (Key.char c) = some c := rfl

theorem filterMap_asChar (cs : List Char) : (cs.map Key.char).filterMap asChar = cs := by
  induction cs with
  | nil => rfl
  | cons c cs ih => rw [List.map_cons, List.filterMap_cons, asChar_char, ih]

/-- The digits of a positive number do not start with a `0`. -/
theorem head_toDigits (positive : 0 < n) : (Nat.toDigits 10 n).head? ≠ some '0' := by
  induction n using Nat.strongRecOn with
  | ind n ih =>
      by_cases small : n < 10
      · rw [Nat.toDigits_of_lt_base small, List.head?_cons]
        intro zero
        have none_left := Nat.digitChar_eq_zero.1 (Option.some.inj zero)
        omega
      · have front := ih (n / 10) (Nat.div_lt_self positive (by decide)) (by omega)
        rw [Nat.toDigits_of_base_le (by decide) (Nat.not_lt.1 small), List.head?_append]
        have some_digit : Nat.toDigits 10 (n / 10) ≠ [] := Nat.toDigits_ne_nil
        obtain ⟨c, rest, whole⟩ := List.exists_cons_of_ne_nil some_digit
        rw [whole] at front ⊢
        exact front

theorem spelled_toDigits (n : Nat) : spelled (Nat.toDigits 10 n) = n := by
  have value := Nat.ofDigitChars_ten_toDigits (n := n)
  rw [Nat.ofDigitChars] at value
  rw [spelled]
  conv_rhs => rw [← value]
  congr 1
  funext sofar c
  rw [Counts.digit, Nat.mul_comm]

/-- The keys of a number type it. -/
theorem feed_countKeys (tables : Tables) (positive : 0 < n) {p : PendingCommand}
    (start : p.stage = .start) (fresh : p.count = none) (tail : List Key) :
    feed tables p (countKeys n ++ tail) = feed tables { p with count := some (min n usizeMax) } tail := by
  have digits : ∀ c ∈ Nat.toDigits 10 n, c.isDigit = true := fun c member =>
    Nat.isDigit_of_mem_toDigits (by decide) (Nat.le_refl 10) member
  have all : ∀ key ∈ countKeys n, ∃ c, asChar key = some c ∧ c.isDigit = true := by
    intro key member
    obtain ⟨c, of_number, rfl⟩ := List.mem_map.1 member
    exact ⟨c, rfl, digits c of_number⟩
  have leads : (countKeys n).head?.bind asChar ≠ some '0' := by
    rw [countKeys, List.head?_map]
    have head := head_toDigits positive
    cases first : (Nat.toDigits 10 n).head? with
    | none => simp
    | some c =>
        rw [first] at head
        exact head
  have some_digit : countKeys n ≠ [] := by
    rw [countKeys, Ne, List.map_eq_nil_iff]
    exact Nat.toDigits_ne_nil
  obtain ⟨fed, counted⟩ := feed_digits tables start all (Or.inr leads) tail
  have some_count := counted (Or.inr some_digit)
  rw [countKeys, filterMap_asChar, fresh] at some_count
  obtain ⟨m, typed_m⟩ := Option.isSome_iff_exists.1 some_count
  have value := (Counts.typed_eq typed_m).1
  rw [spelled_toDigits] at value
  rw [fed, countKeys, filterMap_asChar, fresh, typed_m, value]

/-! ### Repeats -/

/-- What is pending behind the count at the front. -/
def leading (keys : List Key) : PendingCommand :=
  { PendingCommand.clean with count := typed none ((keys.take (leadingCountLen keys)).filterMap asChar) }

theorem feed_leading (tables : Tables) (keys : List Key) :
    feed tables .clean keys = feed tables (leading keys) (keys.drop (leadingCountLen keys)) := by
  obtain ⟨parts, all, leads⟩ := leading_spec keys
  have fed := (@feed_digits tables (keys.take (leadingCountLen keys)) .clean rfl all (Or.inr leads)
    (keys.drop (leadingCountLen keys))).1
  rw [← parts] at fed
  exact fed

/-- One count, wherever it stands. -/
theorem effectiveCount_once {p : PendingCommand} (count : p.count = some (min n usizeMax))
    (no_before : p.opCount = none) (gone : Kept p q ∨ Moved p q) :
    q.effectiveCount = min n maxCount := by
  have capped : min (min (min n usizeMax) usizeMax) maxCount = min n maxCount := by
    rw [Nat.min_assoc n, Nat.min_self, Nat.min_assoc, Nat.min_eq_right Counts.maxCount_le]
  rcases gone with ⟨-, count', before'⟩ | ⟨-, -, count', before'⟩
  · rw [PendingCommand.effectiveCount, Counts.effectiveCount, count', before', count, no_before]
    simp only [Option.getD_none, Option.getD_some, Nat.one_mul, capped]
  · rw [PendingCommand.effectiveCount, Counts.effectiveCount, count', before', count]
    simp only [Option.getD_none, Option.getD_some, Nat.mul_one, capped]

theorem Together.second {p p' : PendingCommand} (together : Together p p' q q') :
    Kept p' q' ∨ Moved p' q' := by
  rcases together with ⟨-, kept⟩ | ⟨-, moved⟩
  · exact Or.inl kept
  · exact Or.inr moved

/-- **A repeat's count takes the place of the count at the front.** -/
theorem feed_repeat {tables : Tables}
    (fed : feed tables .clean (bumped keys) = some (cmd, q, rest))
    (plain : Plain tables true (leading (bumped keys)) ((bumped keys).drop (leadingCountLen (bumped keys))))
    (positive : 0 < n) :
    ∃ cmd' q', feed tables .clean (repeatKeys keys (some n)) = some (cmd', q', rest) ∧
      cmd'.uncounted = cmd.uncounted ∧ q'.operator = q.operator ∧ q'.register = q.register ∧
      q'.effectiveCount = min n maxCount := by
  rw [feed_leading] at fed
  have no_operator : true = true → (leading (bumped keys)).operator.isSome = true →
      (leading (bumped keys)).count = none ∧ some (min n usizeMax) = none := by
    rintro - ⟨⟩
  obtain ⟨cmd', q', fed', same, alike, together⟩ :=
    @feed_alike tables true (leading (bumped keys)) { PendingCommand.clean with count := some (min n usizeMax) } _
      cmd q rest ⟨rfl, rfl, rfl⟩ plain no_operator fed
  refine ⟨cmd', q', ?_, same, alike.operator, alike.register,
    effectiveCount_once rfl rfl together.second⟩
  rw [repeatKeys, feed_countKeys tables positive rfl rfl]
  exact fed'

/-- **Counts on either side of an operator multiply**, also where a register prefix stands before the first. -/
theorem feed_product {tables : Tables} {pre opKeys target : List Key} {op : Char}
    {chosen register : Option Char}
    (prefixed : after tables .clean pre = some ⟨none, none, none, chosen, .start⟩)
    (armed : after tables ⟨none, none, none, chosen, .start⟩ opKeys = some ⟨none, none, some op, register, .start⟩)
    (plain_op : Plain tables true ⟨none, none, none, chosen, .start⟩ opKeys)
    (fed : feed tables ⟨none, none, some op, register, .start⟩ target = some (cmd, q, rest))
    (plain : Plain tables false ⟨none, none, some op, register, .start⟩ target) {a b : Nat}
    (some_a : 0 < a) (some_b : 0 < b) :
    ∃ cmd' q', feed tables .clean (pre ++ (countKeys a ++ (opKeys ++ (countKeys b ++ target)))) =
        some (cmd', q', rest) ∧
      cmd'.uncounted = cmd.uncounted ∧ q'.operator = q.operator ∧ q'.register = q.register ∧
      q'.effectiveCount = min (a * b) maxCount := by
  obtain ⟨q₁, armed', alike, together⟩ :=
    @after_alike tables true ⟨none, none, none, chosen, .start⟩
      ⟨some (min a usizeMax), none, none, chosen, .start⟩ _ _ ⟨rfl, rfl, rfl⟩
      plain_op (by rintro - ⟨⟩) armed
  have before : q₁.count = none ∧ q₁.opCount = some (min a usizeMax) := by
    rcases together with ⟨⟨begun, -⟩, -⟩ | ⟨-, -, -, no_count, before⟩
    · cases begun
    · exact ⟨no_count, before⟩
  obtain ⟨cmd', q', fed', same, alike', together'⟩ :=
    @feed_alike tables false _ { q₁ with count := some (min b usizeMax) } _ cmd q rest
      ⟨alike.operator, alike.register, alike.stage⟩ plain (by rintro ⟨⟩) fed
  refine ⟨cmd', q', ?_, same, alike'.operator, alike'.register, ?_⟩
  · rw [feed_after prefixed, feed_countKeys tables some_a rfl rfl, feed_after armed',
      feed_countKeys tables some_b alike.stage before.1]
    exact fed'
  · rcases together' with ⟨-, -, count, opCount⟩ | ⟨⟨fresh, -⟩, -⟩
    · rw [PendingCommand.effectiveCount, Counts.effectiveCount, count, opCount, before.2]
      have one : 1 ≤ usizeMax := by decide
      exact Counts.capped_mul (Nat.le_min.2 ⟨some_a, one⟩) (Nat.le_min.2 ⟨some_b, one⟩) Counts.maxCount_le
    · cases fresh

/-- **Counts and repeats**: a command without digits behind its front is repeated as it was typed, a put from a
numbered register from the next one; a repeat's count takes the place of the one at the front, up to the ceiling;
and counts on either side of an operator multiply. -/
theorem repeat_counts (tables : Tables) :
    (∀ keys, (numberedPutRegister keys = none → repeatKeys keys none = keys) ∧
      (∀ place c, numberedPutRegister keys = some place → keys[place]?.bind asChar = some c → c.toNat < '9'.toNat →
        repeatKeys keys none = keys.set place (.char (Char.ofNat (c.toNat + 1)))) ∧
      ∀ cmd q rest, feed tables .clean (repeatKeys keys none) = some (cmd, q, rest) →
        Plain tables true (leading (repeatKeys keys none))
          ((repeatKeys keys none).drop (leadingCountLen (repeatKeys keys none))) →
        ∀ n, 0 < n → ∃ cmd' q', feed tables .clean (repeatKeys keys (some n)) = some (cmd', q', rest) ∧
          cmd'.uncounted = cmd.uncounted ∧ q'.operator = q.operator ∧ q'.register = q.register ∧
          q'.effectiveCount = min n maxCount) ∧
    ∀ pre opKeys target op chosen register cmd q rest,
      after tables .clean pre = some ⟨none, none, none, chosen, .start⟩ →
      after tables ⟨none, none, none, chosen, .start⟩ opKeys = some ⟨none, none, some op, register, .start⟩ →
      Plain tables true ⟨none, none, none, chosen, .start⟩ opKeys →
      feed tables ⟨none, none, some op, register, .start⟩ target = some (cmd, q, rest) →
      Plain tables false ⟨none, none, some op, register, .start⟩ target →
      ∀ a b, 0 < a → 0 < b →
        ∃ cmd' q', feed tables .clean (pre ++ (countKeys a ++ (opKeys ++ (countKeys b ++ target)))) =
            some (cmd', q', rest) ∧
          cmd'.uncounted = cmd.uncounted ∧ q'.operator = q.operator ∧ q'.register = q.register ∧
          q'.effectiveCount = min (a * b) maxCount := by
  refine ⟨fun keys => ⟨?_, ?_, ?_⟩, ?_⟩
  · intro no_put
    rw [repeatKeys, bumped, no_put]
  · intro place c numbered char below
    rw [repeatKeys, bumped, numbered]
    simp only [char, below, if_true]
  · intro cmd q rest fed plain n positive
    exact feed_repeat fed plain positive
  · intro pre opKeys target op chosen register cmd q rest prefixed armed plain_op fed plain a b some_a some_b
    exact feed_product prefixed armed plain_op fed plain some_a some_b

/-- No window commands, folds or marks. -/
def noTables : Tables := ⟨fun _ => false, fun _ => false, fun _ => false, fun _ => false, fun _ => false⟩

theorem plain_word (zero : Bool) (count opCount : Option Nat) (register : Option Char) :
    Plain noTables zero ⟨count, opCount, some 'd', register, .start⟩ [Key.char 'w'] := by
  have completes : parseStep noTables ⟨count, opCount, some 'd', register, .start⟩ (Key.char 'w') =
      .complete (.motion (.word false)) := rfl
  constructor
  · intro boundary c char digit
    cases char
    exact absurd digit (by decide)
  · intro next stepped
    cases completes.symm.trans stepped

theorem plain_delete (count : Option Nat) (register : Option Char)
    (rest : Plain noTables true ⟨none, count, some 'd', register, .start⟩ keys) :
    Plain noTables true ⟨count, none, none, register, .start⟩ (Key.char 'd' :: keys) := by
  have arms : parseStep noTables ⟨count, none, none, register, .start⟩ (Key.char 'd') =
      .continues ⟨none, count, some 'd', register, .start⟩ := rfl
  constructor
  · intro boundary c char digit
    cases char
    exact absurd digit (by decide)
  · intro next stepped
    cases arms.symm.trans stepped
    exact ⟨by rintro ⟨⟩, rest⟩

theorem repeat_counts_word :
    (∃ cmd' q', feed noTables .clean (repeatKeys ("3dw".toList.map Key.char) (some 2)) = some (cmd', q', []) ∧
      cmd'.uncounted = .motion (.word false) ∧ q'.operator = some 'd' ∧ q'.register = none ∧
      q'.effectiveCount = min 2 maxCount) ∧
    ∃ cmd' q', feed noTables .clean
        ("\"a".toList.map Key.char ++ (countKeys 2 ++ ([Key.char 'd'] ++ (countKeys 3 ++ [Key.char 'w'])))) =
          some (cmd', q', []) ∧
      cmd'.uncounted = .motion (.word false) ∧ q'.operator = some 'd' ∧ q'.register = some 'a' ∧
      q'.effectiveCount = min (2 * 3) maxCount := by
  constructor
  · exact ((repeat_counts noTables).1 ("3dw".toList.map Key.char)).2.2 (.motion (.word false))
      ⟨none, some 3, some 'd', none, .start⟩ [] (by decide)
      (plain_delete (some 3) none (plain_word true none (some 3) none)) 2 (by decide)
  · exact (repeat_counts noTables).2 ("\"a".toList.map Key.char) [Key.char 'd'] [Key.char 'w'] 'd' (some 'a') (some 'a')
      (.motion (.word false)) ⟨none, none, some 'd', some 'a', .start⟩ [] rfl rfl
      (plain_delete none (some 'a') trivial) rfl (plain_word false none none (some 'a')) 2 3 (by decide) (by decide)

/-- **A put from a numbered register is repeated from the next register**: `"1p` takes register `1`, and both `.` and
`2.` take register `2`. -/
theorem numbered_put_moves_on :
    (feed noTables .clean ("\"1p".toList.map Key.char)).map (·.2.1.register) = some (some '1') ∧
    (feed noTables .clean (repeatKeys ("\"1p".toList.map Key.char) none)).map (·.2.1.register) =
      some (some '2') ∧
    (feed noTables .clean (repeatKeys ("\"1p".toList.map Key.char) (some 2))).map (·.2.1.register) =
      some (some '2') := by
  decide

end Bemtvi.Core.Commands
