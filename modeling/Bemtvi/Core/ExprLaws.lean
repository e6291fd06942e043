/-
Module: Bemtvi.Core.ExprLaws
Purpose: The evaluator of `:echo` and `%{…}` gives the meaning of the tree that the tokens spell,
  and gives a value to nothing else.
Trusted boundary: proofs are kernel-checked; definitions are inherited from imported modules
Main exports: nested_reads, evalExpr_means, evalEcho_means
-/
import Bemtvi.Core.Expr

namespace Bemtvi.Core.Expr

open Parsing Utf8

section Reading

variable {F : Type} {std : Std F} {opts : Option (Text → Option OptVal)}

/-! ### How tightly an operator binds -/

def Tok.binds : Tok F → Nat
  | .question => 1
  | .orOr => 2
  | .andAnd => 3
  | .eq | .ne | .lt | .le | .gt | .ge => 4
  | .concat => 5
  | .plus | .minus => 6
  | .star | .slash | .percent => 7
  | _ => 0

/-- What follows is no operator of the level or a tighter one. -/
def StopsAt (level : Nat) (rest : List (Tok F)) : Prop :=
  ∀ t behind, rest = t :: behind → t.binds < level

variable {rest : List (Tok F)} {t : Tok F}

theorem StopsAt.mono {level level' : Nat} (stops : StopsAt level rest) (le : level ≤ level') :
    StopsAt level' rest :=
  fun t behind same => (stops t behind same).trans_le le

theorem stopsAt_nil {level : Nat} : StopsAt (F := F) level [] := by
  intro t behind same
  cases same

theorem stopsAt_cons {level : Nat} : StopsAt level (t :: rest) ↔ t.binds < level := by
  constructor
  · intro stops
    exact stops t rest rfl
  · rintro below t' behind ⟨rfl, rfl⟩
    exact below

/-- The operators of a level. -/
structure OfLevel (infixOf : Tok F → Option Infix) (level : Nat) : Prop where
  binds : ∀ {t op}, infixOf t = some op → t.binds = level
  covers : ∀ {t}, infixOf t = none → t.binds ≠ level

/-- A reading of operators that takes exactly the tokens of a level. -/
theorem OfLevel.of_exact {infixOf : Tok F → Option Infix} {level : Nat}
    (takes : ∀ t, (infixOf t).isSome = decide (t.binds = level)) : OfLevel infixOf level := by
  constructor
  · intro t op found
    have taken := takes t
    rw [found] at taken
    exact of_decide_eq_true taken.symm
  · intro t found
    have left := takes t
    rw [found] at left
    exact of_decide_eq_false left.symm

theorem multiplicativeOp_level : OfLevel (F := F) multiplicativeOp 7 :=
  .of_exact fun t => by cases t <;> rfl

theorem additiveOp_level : OfLevel (F := F) additiveOp 6 :=
  .of_exact fun t => by cases t <;> rfl

theorem concatOp_level : OfLevel (F := F) concatOp 5 :=
  .of_exact fun t => by cases t <;> rfl

theorem comparisonOp_level : OfLevel (F := F) comparisonOp 4 :=
  .of_exact fun t => by cases t <;> rfl

theorem logicAndOp_level : OfLevel (F := F) logicAndOp 3 :=
  .of_exact fun t => by cases t <;> rfl

theorem logicOrOp_level : OfLevel (F := F) logicOrOp 2 :=
  .of_exact fun t => by cases t <;> rfl

theorem OfLevel.none_of_stops {infixOf : Tok F → Option Infix} {level : Nat}
    (ofLevel : OfLevel infixOf level) (stops : StopsAt level (t :: rest)) : infixOf t = none := by
  cases found : infixOf t with
  | none => rfl
  | some op => exact absurd (stopsAt_cons.1 stops) (ofLevel.binds found ▸ lt_irrefl _)

theorem OfLevel.stops {infixOf : Tok F → Option Infix} {level : Nat}
    (ofLevel : OfLevel infixOf level) {op : Infix} (rest : List (Tok F))
    (found : infixOf t = some op) : StopsAt (level + 1) (t :: rest) :=
  stopsAt_cons.2 (ofLevel.binds found ▸ Nat.lt_succ_self level)

/-! ### The levels -/

theorem binary_composes :
    Compositional (Tree.meaning std opts) Tree.binary (Infix.apply std) := by
  intro op left right
  rw [Tree.meaning]
  cases left.meaning std opts with
  | error e => rfl
  | ok left => cases right.meaning std opts <;> rfl

variable {operand : Parser (Tok F) String (Value F)} {Operand : Grammar (Tok F) (Tree F)}
  {infixOf : Tok F → Option Infix} {level : Nat}

/-- A level on top of the one above it. -/
theorem level_reads (ofLevel : OfLevel infixOf level)
    (reads : Reads (Tree.meaning std opts) (StopsAt (level + 1)) operand Operand) :
    Reads (Tree.meaning std opts) (StopsAt level) (chain operand infixOf (Infix.apply std))
      (Chained Operand infixOf .binary) :=
  chain_reads reads binary_composes (fun _ _ rest found => ofLevel.stops rest found)
    (fun _ stops => stops.mono (Nat.le_succ level)) fun _ _ stops => ofLevel.none_of_stops stops

theorem reads_weaken {meaning : Tree F → Outcome F} {Stops : List (Tok F) → Prop}
    (Stops' : List (Tok F) → Prop) (reads : Reads meaning Stops operand Operand)
    (weaker : ∀ rest, Stops' rest → Stops rest) :
    Reads meaning Stops' operand Operand :=
  ⟨reads.sound, fun spelled stops => reads.complete spelled (weaker _ stops), reads.consumes⟩

variable {unary ternary : Parser (Tok F) String (Value F)}
  {UnarySpells TernarySpells : Grammar (Tok F) (Tree F)}

theorem logicOr_reads
    (reads : Reads (Tree.meaning std opts) (fun _ => True) unary UnarySpells) :
    Reads (Tree.meaning std opts) (StopsAt 2) (logicOr std unary) (Levels UnarySpells) := by
  have multiplicative := level_reads multiplicativeOp_level
    (reads_weaken (StopsAt 8) reads fun _ _ => trivial)
  have concat := level_reads concatOp_level (level_reads additiveOp_level multiplicative)
  have comparison : Reads _ (StopsAt 4) (comparison std unary) _ :=
    atMostOne_reads concat binary_composes
      (fun _ _ rest found => comparisonOp_level.stops rest found)
      (fun _ stops => stops.mono (Nat.le_succ 4))
      fun _ _ stops => comparisonOp_level.none_of_stops stops
  exact level_reads logicOrOp_level (level_reads logicAndOp_level comparison)

/-! ### The steps -/

theorem primary_reads (reads : Reads (Tree.meaning std opts) (StopsAt 1) ternary TernarySpells) :
    Reads (Tree.meaning std opts) (fun _ => True) (primary opts ternary)
      (Primary TernarySpells) := by
  refine ⟨?_, ?_, ?_⟩
  · intro ts v rest read
    match ts with
    | [] => cases read
    | t :: ts =>
        cases t with
        | int n =>
            cases read
            exact ⟨[.int n], .int n, rfl, .int n, by rw [Tree.meaning]⟩
        | float f =>
            cases read
            exact ⟨[.float f], .float f, rfl, .float f, by rw [Tree.meaning]⟩
        | str s =>
            cases read
            exact ⟨[.str s], .str s, rfl, .str s, by rw [Tree.meaning]⟩
        | option name =>
            rw [primary] at read
            cases resolved : resolveOption (F := F) opts name with
            | error e => simp only [resolved, leaving_error, reduceCtorEq] at read
            | ok value =>
                rw [resolved] at read
                cases read
                exact ⟨[.option name], .option name, rfl, .option name,
                  by rw [Tree.meaning, resolved]⟩
        | ident name => cases read
        | lParen =>
            rw [primary] at read
            cases inner : ternary ts with
            | error e => simp only [inner, reduceCtorEq] at read
            | ok next =>
                obtain ⟨value, ts'⟩ := next
                obtain ⟨front, e, rfl, spelled, means⟩ := reads.sound inner
                rw [inner] at read
                match ts' with
                | .rParen :: ts' =>
                    cases read
                    exact ⟨Tok.lParen :: (front ++ [Tok.rParen]), e, by simp, .group spelled, means⟩
        | _ => cases read
  · intro front e rest spelled _
    cases spelled with
    | int n => rw [Tree.meaning]; rfl
    | float f => rw [Tree.meaning]; rfl
    | str s => rw [Tree.meaning]; rfl
    | option name => rw [Tree.meaning]; rfl
    | ident name => rw [Tree.meaning]; rfl
    | @group ts e spelled =>
        have closes : StopsAt (F := F) 1 ([Tok.rParen] ++ rest) := stopsAt_cons.2 Nat.one_pos
        rw [List.cons_append, List.append_assoc, primary, reads.complete spelled closes]
        cases e.meaning std opts <;> rfl
  · intro front e spelled
    cases spelled <;> simp

theorem unaryStep_reads
    (unaries : Reads (Tree.meaning std opts) (fun _ => True) unary UnarySpells)
    (reads : Reads (Tree.meaning std opts) (StopsAt 1) ternary TernarySpells) :
    Reads (Tree.meaning std opts) (fun _ => True) (unaryStep std opts unary ternary)
      (Unary UnarySpells TernarySpells) := by
  have primaries := primary_reads reads
  refine ⟨?_, ?_, ?_⟩
  · intro ts v rest read
    rw [unaryStep.eq_def] at read
    split at read
    · next ts =>
        cases inner : unary ts with
        | error e => simp only [inner, reduceCtorEq] at read
        | ok next =>
            obtain ⟨value, ts'⟩ := next
            obtain ⟨front, e, rfl, spelled, means⟩ := unaries.sound inner
            simp only [inner] at read
            cases applied : arith std (.int 0) value .sub with
            | error e => simp only [applied, leaving_error, reduceCtorEq] at read
            | ok value' =>
                rw [applied] at read
                cases read
                exact ⟨.minus :: front, .negative e, rfl, .negative spelled,
                  by rw [Tree.meaning, means]; exact applied⟩
    · obtain ⟨front, e, rfl, spelled, means⟩ := unaries.sound read
      exact ⟨.plus :: front, .positive e, rfl, .positive spelled, by rw [Tree.meaning, means]⟩
    · next ts =>
        cases inner : unary ts with
        | error e => simp only [inner, reduceCtorEq] at read
        | ok next =>
            obtain ⟨value, ts'⟩ := next
            obtain ⟨front, e, rfl, spelled, means⟩ := unaries.sound inner
            rw [inner] at read
            cases read
            exact ⟨.bang :: front, .not e, rfl, .not spelled, by rw [Tree.meaning, means]⟩
    · obtain ⟨front, e, rfl, spelled, means⟩ := primaries.sound read
      exact ⟨front, e, rfl, .primary spelled, means⟩
  · intro front e rest spelled _
    cases spelled with
    | @negative ts e spelled =>
        rw [List.cons_append, unaryStep, unaries.complete spelled trivial, Tree.meaning]
        cases e.meaning std opts <;> rfl
    | @positive ts e spelled =>
        rw [List.cons_append, unaryStep, unaries.complete spelled trivial, Tree.meaning]
    | @not ts e spelled =>
        rw [List.cons_append, unaryStep, unaries.complete spelled trivial, Tree.meaning]
        cases e.meaning std opts <;> rfl
    | primary spelled =>
        have read : primary opts ternary (front ++ rest) = _ := primaries.complete spelled trivial
        cases spelled <;> exact read
  · intro front e spelled
    cases spelled with
    | primary spelled => exact primaries.consumes spelled
    | _ => simp

theorem ternaryStep_reads
    (unaries : Reads (Tree.meaning std opts) (fun _ => True) unary UnarySpells)
    (reads : Reads (Tree.meaning std opts) (StopsAt 1) ternary TernarySpells) :
    Reads (Tree.meaning std opts) (StopsAt 1) (ternaryStep std unary ternary)
      (Ternary UnarySpells TernarySpells) := by
  have levels := logicOr_reads unaries
  refine ⟨?_, ?_, ?_⟩
  · intro ts v rest read
    rw [ternaryStep] at read
    split at read
    · cases read
    · next test ts' first =>
        obtain ⟨cs, c, rfl, spelled, means⟩ := levels.sound first
        split at read
        · cases read
        · next thenBranch ts'' second =>
            obtain ⟨ts, t, rfl, spelled', means'⟩ := reads.sound second
            split at read
            · cases read
            · next elseBranch rest third =>
                obtain ⟨es, e, rfl, spelled'', means''⟩ := reads.sound third
                cases read
                refine ⟨cs ++ Tok.question :: (ts ++ Tok.colon :: es), .cond c t e, by simp,
                  .cond spelled spelled' spelled'', ?_⟩
                rw [Tree.meaning, means, means', means'']
        · cases read
    · next first =>
        obtain ⟨front, e, rfl, spelled, means⟩ := levels.sound first
        cases read
        exact ⟨front, e, rfl, .plain spelled, means⟩
  · intro front e rest spelled stops
    cases spelled with
    | plain spelled =>
        rw [ternaryStep, levels.complete spelled (stops.mono (Nat.le_succ 1))]
        cases e.meaning std opts with
        | error e => rfl
        | ok value =>
            cases rest with
            | nil => rfl
            | cons t rest =>
                cases t with
                | question => exact absurd (stopsAt_cons.1 stops) (lt_irrefl 1)
                | _ => rfl
    | @cond cs c ts t es e spelled spelled' spelled'' =>
        have asks : ∀ rest, StopsAt (F := F) 2 (.question :: rest) :=
          fun rest => stopsAt_cons.2 (Nat.lt_succ_self 1)
        have splits : ∀ rest, StopsAt (F := F) 1 (.colon :: rest) :=
          fun rest => stopsAt_cons.2 Nat.one_pos
        rw [ternaryStep, List.append_assoc, List.cons_append, List.append_assoc, List.cons_append,
          levels.complete spelled (asks _), Tree.meaning]
        cases c.meaning std opts with
        | error e => rfl
        | ok test =>
            simp only [leaving_ok, reads.complete spelled' (splits _)]
            cases t.meaning std opts with
            | error e => rfl
            | ok thenBranch =>
                simp only [leaving_ok, reads.complete spelled'' stops]
                cases e.meaning std opts <;> rfl
  · intro front e spelled
    cases spelled with
    | plain spelled => exact levels.consumes spelled
    | cond => simp

/-- What follows a step's expression. -/
def Rule.Stops : Rule → List (Tok F) → Prop
  | .ternary => StopsAt 1
  | .unary => fun _ => True

theorem nested_reads (depth : Nat) (rule : Rule) :
    Reads (Tree.meaning std opts) rule.Stops (nested std opts depth rule) (spells depth rule) := by
  induction depth generalizing rule with
  | zero =>
      refine ⟨?_, ?_, ?_⟩
      · intro ts v rest read
        cases read
      · intro front e rest spelled
        cases spelled
      · intro front e spelled
        cases spelled
  | succ depth ih =>
      cases rule with
      | ternary => exact ternaryStep_reads (ih .unary) (ih .ternary)
      | unary => exact unaryStep_reads (ih .unary) (ih .ternary)

theorem expression_reads (std : Std F) (opts : Option (Text → Option OptVal)) :
    Reads (Tree.meaning std opts) (StopsAt 1) (expression std opts) Spells :=
  nested_reads maxExprDepth .ternary

theorem levels_of_unary {Operand : Grammar (Tok F) (Tree F)} {ts : List (Tok F)} {e : Tree F}
    (spelled : Operand ts e) : Levels Operand ts e :=
  Chained.one (Chained.one (AtMostOne.one (Chained.one (Chained.one (Chained.one spelled)))))

/-! ### Whole texts -/

/-- A status line item shows the meaning of the tree that its tokens spell; what spells no tree is
an error. -/
theorem evalExpr_means (resolve : Text → Option OptVal) (input : Text) :
    (∀ out, evalExpr std resolve input = .ok out →
      trim input = [] ∧ out = [] ∨
        ∃ toks e v, tokenize std (trim input) = .ok toks ∧ Spells toks e ∧
          e.meaning std (some resolve) = .ok v ∧ out = v.display std) ∧
      ∀ toks e, tokenize std (trim input) = .ok toks → Spells toks e →
        evalExpr std resolve input = (e.meaning std (some resolve)).map (Value.display std) := by
  have reads := expression_reads std (some resolve)
  constructor
  · intro out shown
    rw [evalExpr] at shown
    split at shown
    · next blank =>
        cases shown
        exact .inl ⟨blank, rfl⟩
    · split at shown
      · cases shown
      · next toks lexed =>
          split at shown
          · cases shown
          · next v read =>
              obtain ⟨front, e, whole, spelled, means⟩ := reads.sound read
              rw [List.append_nil] at whole
              cases shown
              exact .inr ⟨toks, e, v, lexed, whole ▸ spelled, means, rfl⟩
          · cases shown
  · intro toks e lexed spelled
    have read : expression std (some resolve) (toks ++ []) = _ :=
      reads.complete spelled stopsAt_nil
    rw [List.append_nil] at read
    rw [evalExpr, if_neg, lexed]
    · simp only [read]
      cases e.meaning std (some resolve) <;> rfl
    · intro blank
      rw [blank] at lexed
      cases lexed
      exact reads.consumes spelled rfl

/-- Floats as far as whole numbers go. -/
def wholeStd : Std Int where
  ofInt := Int64.toInt
  add := (· + ·)
  sub := (· - ·)
  mul := (· * ·)
  div := Int.tdiv
  rem := Int.tmod
  partialCmp x y := some (Ord.compare x y)
  isZero := (· == 0)
  isWhole _ := true
  oneDecimal n := (toString n).toList ++ ['.', '0']
  shortest n := (toString n).toList
  parse _ := 0
  debug s := "\"" ++ String.ofList s ++ "\""

/-- `!''.7`: the sign binds tighter than the dot. -/
theorem evalExpr_means_not :
    evalExpr wholeStd (fun _ => none) ['!', '\'', '\'', '.', '7'] = .ok ['1', '7'] := by
  have spelled : Spells (F := Int) [.bang, .str [], .concat, .int 7]
      (.binary .concat (.not (.str [])) (.int 7)) := by
    have seven : spells 199 .unary [Tok.int (F := Int) 7] (.int 7) := Unary.primary (.int 7)
    have nothing : spells 198 .unary [Tok.str (F := Int) []] (.str []) := Unary.primary (.str [])
    have denied : spells 199 .unary [Tok.bang (F := Int), .str []] (.not (.str [])) :=
      Unary.not nothing
    have joined : Chained (Chained (Chained (spells 199 .unary) multiplicativeOp .binary) additiveOp
        .binary) concatOp .binary ([Tok.bang (F := Int), Tok.str []] ++ Tok.concat :: [Tok.int 7])
        (.binary .concat (.not (.str [])) (.int 7)) :=
      Chained.more (Chained.one (Chained.one (Chained.one denied))) rfl
        (Chained.one (Chained.one seven))
    exact Ternary.plain (Chained.one (Chained.one (AtMostOne.one joined)))
  exact (evalExpr_means (fun _ => none) ['!', '\'', '\'', '.', '7']).2 _ _ rfl
    spelled

/-- Each argument but the last is followed by no operator. -/
def Separate : Arguments F → Prop
  | [] => True
  | _ :: args => StopsAt 1 (Arguments.tokens args) ∧ Separate args

theorem shown_cons (front : List (Tok F)) (e : Tree F) (args : Arguments F) :
    Arguments.shown std ((front, e) :: args) =
      match e.meaning std none with
      | .error e => .error e
      | .ok v => (args.shown std).map (v.display std :: ·) := by
  rw [Arguments.shown, List.mapM_cons]
  cases e.meaning std none with
  | error e => rfl
  | ok v =>
      cases further : args.shown std with
      | error e =>
          rw [Arguments.shown] at further
          rw [further]
          rfl
      | ok texts =>
          rw [Arguments.shown] at further
          rw [further]
          rfl

theorem evalParts_sound {fuel : Nat} {toks : List (Tok F)} {texts : List Text}
    (enough : toks.length ≤ fuel) (shown : evalParts std none fuel toks = .ok texts) :
    ∃ args : Arguments F, toks = args.tokens ∧ (∀ arg ∈ args, Spells arg.1 arg.2) ∧
      args.shown std = .ok texts := by
  have reads := expression_reads std none
  induction fuel generalizing toks texts with
  | zero =>
      obtain rfl := List.eq_nil_of_length_eq_zero (Nat.le_zero.1 enough)
      cases shown
      exact ⟨[], rfl, by simp, rfl⟩
  | succ fuel ih =>
      cases toks with
      | nil =>
          cases shown
          exact ⟨[], rfl, by simp, rfl⟩
      | cons t ts =>
          rw [evalParts] at shown
          cases read : expression std none (t :: ts) with
          | error e => simp only [read, reduceCtorEq] at shown
          | ok next =>
              obtain ⟨v, rest⟩ := next
              have shorter := reads.shorter read
              obtain ⟨front, e, whole, spelled, means⟩ := reads.sound read
              simp only [read] at shown
              cases further : evalParts std none fuel rest with
              | error e => simp only [further, Except.map, reduceCtorEq] at shown
              | ok texts' =>
                  rw [further] at shown
                  cases shown
                  obtain ⟨args, rfl, each, shown⟩ :=
                    ih (Nat.le_of_lt_succ (shorter.trans_le enough)) further
                  refine ⟨(front, e) :: args, whole, ?_, ?_⟩
                  · intro arg among
                    rcases List.mem_cons.1 among with rfl | among
                    · exact spelled
                    · exact each arg among
                  · rw [shown_cons, means, shown]
                    rfl

theorem evalParts_complete {fuel : Nat} {args : Arguments F}
    (enough : args.tokens.length ≤ fuel) (each : ∀ arg ∈ args, Spells arg.1 arg.2)
    (separate : Separate args) :
    evalParts std none fuel args.tokens = args.shown std := by
  have reads := expression_reads std none
  induction args generalizing fuel with
  | nil => cases fuel <;> rfl
  | cons arg args ih =>
      obtain ⟨front, e⟩ := arg
      have spelled : Spells front e := each (front, e) List.mem_cons_self
      have whole : Arguments.tokens ((front, e) :: args) = front ++ Arguments.tokens args := rfl
      have read := reads.complete spelled separate.1
      have some := List.length_pos_of_ne_nil (reads.consumes spelled)
      rw [whole, List.length_append] at enough
      rw [whole, shown_cons]
      cases ahead : front ++ Arguments.tokens args with
      | nil =>
          rw [List.append_eq_nil_iff] at ahead
          exact absurd ahead.1 (reads.consumes spelled)
      | cons t ts =>
          cases fuel with
          | zero => omega
          | succ fuel =>
              rw [evalParts, ← ahead, read]
              cases e.meaning std none with
              | error e => rfl
              | ok v =>
                  simp only [leaving_ok]
                  rw [ih (by omega) (fun arg among => each arg (List.mem_cons_of_mem _ among))
                    separate.2]

/-- `:echo` shows the meanings of its arguments' trees with blanks between them. -/
theorem evalEcho_means (input : Text) :
    (∀ out, evalEcho std input = .ok out →
      trim input = [] ∧ out = [] ∨
        ∃ (args : Arguments F) (texts : List Text),
          tokenize std (trim input) = .ok args.tokens ∧
            (∀ arg ∈ args, Spells arg.1 arg.2) ∧ args.shown std = .ok texts ∧
            out = [' '].intercalate texts) ∧
      ∀ args : Arguments F, tokenize std (trim input) = .ok args.tokens →
        (∀ arg ∈ args, Spells arg.1 arg.2) → Separate args →
        evalEcho std input = (args.shown std).map ([' '].intercalate ·) := by
  constructor
  · intro out shown
    rw [evalEcho] at shown
    split at shown
    · next blank =>
        cases shown
        exact .inl ⟨blank, rfl⟩
    · split at shown
      · cases shown
      · next toks lexed =>
          rw [evalAll] at shown
          cases parts : evalParts std none toks.length toks with
          | error e => simp only [parts, Except.map, reduceCtorEq] at shown
          | ok texts =>
              rw [parts] at shown
              cases shown
              obtain ⟨args, rfl, each, shown⟩ := evalParts_sound le_rfl parts
              exact .inr ⟨args, texts, lexed, each, shown, rfl⟩
  · intro args lexed each separate
    rw [evalEcho]
    split
    · next blank =>
        rw [blank] at lexed
        cases args with
        | nil => rfl
        | cons arg args =>
            have spelled := each arg List.mem_cons_self
            have nothing : arg.1 ++ Arguments.tokens args = [] := (Except.ok.inj lexed).symm
            exact absurd (List.append_eq_nil_iff.1 nothing).1
              ((expression_reads std none).consumes spelled)
    · rw [lexed]
      simp only [evalAll, evalParts_complete le_rfl each separate]

/-- `1 +2 'x'`: a sum and a string. -/
theorem evalEcho_means_two :
    evalEcho wholeStd ['1', ' ', '+', '2', ' ', '\'', 'x', '\''] = .ok ['3', ' ', 'x'] := by
  have literal : ∀ n, spells 199 .unary [Tok.int (F := Int) n] (.int n) :=
    fun n => Unary.primary (.int n)
  have added : Chained (Chained (spells 199 .unary) multiplicativeOp .binary) additiveOp .binary
      ([Tok.int (F := Int) 1] ++ Tok.plus :: [Tok.int 2])
      (.binary (.arith .add) (.int 1) (.int 2)) :=
    Chained.more (Chained.one (Chained.one (literal 1))) rfl (Chained.one (literal 2))
  have sum : Spells (F := Int) [.int 1, .plus, .int 2]
      (.binary (.arith .add) (.int 1) (.int 2)) :=
    Ternary.plain (Chained.one (Chained.one (AtMostOne.one (Chained.one added))))
  have name : Spells (F := Int) [.str ['x']] (.str ['x']) :=
    Ternary.plain (levels_of_unary (Unary.primary (.str ['x'])))
  refine (evalEcho_means ['1', ' ', '+', '2', ' ', '\'', 'x', '\'']).2
    [([.int 1, .plus, .int 2], .binary (.arith .add) (.int 1) (.int 2)), ([.str ['x']], .str ['x'])]
    rfl ?_ ⟨stopsAt_cons.2 Nat.one_pos, stopsAt_nil, trivial⟩
  intro arg among
  rcases List.mem_cons.1 among with rfl | among
  · exact sum
  · exact List.mem_singleton.1 among ▸ name

end Reading

end Bemtvi.Core.Expr
