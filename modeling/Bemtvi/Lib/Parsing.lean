/-
Module: Bemtvi.Lib.Parsing
Purpose: Parsers that work out a meaning while they read, against a grammar of trees that have the
  meaning: what such a parser owes to its grammar, and that a level of left-associative operators,
  and one of operators that do not associate, owe it as soon as their operands do.
Trusted boundary: human-reviewed spec
Main exports: Parser, Grammar, Reads, chain, Chained, chain_reads, atMostOne, AtMostOne,
  atMostOne_reads
-/
import Mathlib

namespace Bemtvi.Parsing

/-- A value and the tokens behind it, or an error. -/
abbrev Parser (τ ε α : Type) := List τ → Except ε (α × List τ)

/-- The tokens that spell a tree. -/
abbrev Grammar (τ E : Type) := List τ → E → Prop

variable {τ ε α E ω : Type}

/-- A value read, with the tokens behind it. -/
def leaving (outcome : Except ε α) (rest : List τ) : Except ε (α × List τ) :=
  outcome.map fun v => (v, rest)

@[simp] theorem leaving_ok (v : α) (rest : List τ) :
    leaving (.ok v : Except ε α) rest = .ok (v, rest) := rfl

@[simp] theorem leaving_error (e : ε) (rest : List τ) :
    leaving (.error e : Except ε α) rest = .error e := rfl

/-- A value that is read is the meaning of a tree that the tokens read spell; and tokens that spell
a tree are read up to their end, where what is behind them lets the parser stop. -/
structure Reads (meaning : E → Except ε α) (Stops : List τ → Prop) (parser : Parser τ ε α)
    (spells : Grammar τ E) : Prop where
  sound : ∀ {ts v rest}, parser ts = .ok (v, rest) →
    ∃ front e, ts = front ++ rest ∧ spells front e ∧ meaning e = .ok v
  complete : ∀ {front e rest}, spells front e → Stops rest →
    parser (front ++ rest) = leaving (meaning e) rest
  consumes : ∀ {front e}, spells front e → front ≠ []

theorem Reads.shorter {meaning : E → Except ε α} {Stops : List τ → Prop} {parser : Parser τ ε α}
    {spells : Grammar τ E} (reads : Reads meaning Stops parser spells) {ts rest : List τ} {v : α}
    (read : parser ts = .ok (v, rest)) : rest.length < ts.length := by
  obtain ⟨front, e, rfl, spelled, -⟩ := reads.sound read
  rw [List.length_append]
  have some := List.length_pos_of_ne_nil (reads.consumes spelled)
  omega

section Operators

variable (operand : Parser τ ε α) (infixOf : τ → Option ω) (apply : ω → α → α → Except ε α)

/-! ### Operators that associate to the left -/

/-- The loop of a level: as long as an operator follows, one more operand. -/
def chainLoop : Nat → α → Parser τ ε α
  | 0, left, ts => .ok (left, ts)
  | fuel + 1, left, ts =>
      match ts with
      | [] => .ok (left, [])
      | t :: rest =>
          match infixOf t with
          | none => .ok (left, t :: rest)
          | some op =>
              match operand rest with
              | .error e => .error e
              | .ok (right, rest) =>
                  match apply op left right with
                  | .error e => .error e
                  | .ok left => chainLoop fuel left rest

def chain : Parser τ ε α := fun ts =>
  match operand ts with
  | .error e => .error e
  | .ok (left, rest) => chainLoop operand infixOf apply rest.length left rest

/-- Operands with operators between them, grouped to the left. -/
inductive Chained (Operand : Grammar τ E) (infixOf : τ → Option ω) (node : ω → E → E → E) :
    Grammar τ E where
  | one {ts e} : Operand ts e → Chained Operand infixOf node ts e
  | more {ls l t op rs r} : Chained Operand infixOf node ls l → infixOf t = some op →
      Operand rs r → Chained Operand infixOf node (ls ++ t :: rs) (node op l r)

/-- The meaning of an operator's tree: left to right, then the operator. -/
def Compositional (meaning : E → Except ε α) (node : ω → E → E → E)
    (apply : ω → α → α → Except ε α) : Prop :=
  ∀ op l r, meaning (node op l r) =
    match meaning l with
    | .error e => .error e
    | .ok left =>
        match meaning r with
        | .error e => .error e
        | .ok right => apply op left right

variable {operand infixOf apply} {meaning : E → Except ε α} {Stops StopsOperand : List τ → Prop}
  {Operand : Grammar τ E} {node : ω → E → E → E}

variable {fuel : Nat} {ts front rest : List τ}

/-- The loop's fuel does not show once there is a unit for each token. -/
theorem chainLoop_fuel (reads : Reads meaning StopsOperand operand Operand) {fuel' : Nat}
    (left : α) (enough : ts.length ≤ fuel) (enough' : ts.length ≤ fuel') :
    chainLoop operand infixOf apply fuel left ts =
      chainLoop operand infixOf apply fuel' left ts := by
  induction fuel generalizing fuel' left ts with
  | zero =>
      obtain rfl := List.eq_nil_of_length_eq_zero (Nat.le_zero.1 enough)
      cases fuel' <;> rfl
  | succ fuel ih =>
      cases ts with
      | nil => cases fuel' <;> rfl
      | cons t rest =>
          cases fuel' with
          | zero => cases enough'
          | succ fuel' =>
              simp only [chainLoop]
              cases infixOf t with
              | none => rfl
              | some op =>
                  simp only
                  cases read : operand rest with
                  | error e => rfl
                  | ok next =>
                      obtain ⟨right, rest'⟩ := next
                      have shorter := reads.shorter read
                      simp only [List.length_cons] at enough enough'
                      simp only
                      cases apply op left right with
                      | error e => rfl
                      | ok left => exact ih left (by omega) (by omega)

theorem chainLoop_sound (reads : Reads meaning StopsOperand operand Operand)
    (composes : Compositional meaning node apply) {left v : α} {e : E}
    (spelled : Chained Operand infixOf node front e) (means : meaning e = .ok left)
    (read : chainLoop operand infixOf apply fuel left ts = .ok (v, rest)) :
    ∃ front' e', front ++ ts = front' ++ rest ∧ Chained Operand infixOf node front' e' ∧
      meaning e' = .ok v := by
  induction fuel generalizing left front ts e with
  | zero =>
      cases read
      exact ⟨front, e, rfl, spelled, means⟩
  | succ fuel ih =>
      cases ts with
      | nil =>
          cases read
          exact ⟨front, e, rfl, spelled, means⟩
      | cons t ts =>
          simp only [chainLoop] at read
          cases between : infixOf t with
          | none =>
              rw [between] at read
              cases read
              exact ⟨front, e, rfl, spelled, means⟩
          | some op =>
              simp only [between] at read
              cases right : operand ts with
              | error e => simp only [right, reduceCtorEq] at read
              | ok next =>
                  obtain ⟨value, ts'⟩ := next
                  simp only [right] at read
                  obtain ⟨front', e', rfl, spelled', means'⟩ := reads.sound right
                  cases applied : apply op left value with
                  | error e => simp only [applied, reduceCtorEq] at read
                  | ok left' =>
                      simp only [applied] at read
                      have whole : meaning (node op e e') = .ok left' := by
                        rw [composes op e e', means, means']
                        exact applied
                      have further := ih (.more spelled between spelled') whole read
                      simpa only [List.append_assoc, List.cons_append] using further

/-- Reading a chain leads to its value, with the loop still to come. -/
theorem chain_append (reads : Reads meaning StopsOperand operand Operand)
    (composes : Compositional meaning node apply)
    (infixStops : ∀ t op rest, infixOf t = some op → StopsOperand (t :: rest)) {e : E}
    (spelled : Chained Operand infixOf node front e) (stops : StopsOperand rest) :
    chain operand infixOf apply (front ++ rest) =
      match meaning e with
      | .error e => .error e
      | .ok left => chainLoop operand infixOf apply rest.length left rest := by
  induction spelled generalizing rest with
  | @one ts e spelled =>
      rw [chain, reads.complete spelled stops]
      cases meaning e <;> rfl
  | @more ls l t op rs r spelled between spelled' ih =>
      rw [List.append_assoc, List.cons_append, ih (infixStops t op _ between), composes op l r]
      cases meaning l with
      | error e => rfl
      | ok left =>
          simp only [List.length_cons, chainLoop, between, reads.complete spelled' stops]
          cases meaning r with
          | error e => rfl
          | ok right =>
              simp only [leaving_ok]
              cases apply op left right with
              | error e => rfl
              | ok left =>
                  refine chainLoop_fuel reads left ?_ le_rfl
                  rw [List.length_append]
                  exact Nat.le_add_left _ _

theorem chainLoop_stops {left : α} (ends : ∀ t behind, rest = t :: behind → infixOf t = none) :
    chainLoop operand infixOf apply fuel left rest = .ok (left, rest) := by
  cases fuel with
  | zero => rfl
  | succ fuel =>
      cases rest with
      | nil => rfl
      | cons t rest =>
          rw [chainLoop, ends t rest rfl]

/-- A level of operators that associate to the left. -/
theorem chain_reads (reads : Reads meaning StopsOperand operand Operand)
    (composes : Compositional meaning node apply)
    (infixStops : ∀ t op rest, infixOf t = some op → StopsOperand (t :: rest))
    (weaker : ∀ rest, Stops rest → StopsOperand rest)
    (ends : ∀ t rest, Stops (t :: rest) → infixOf t = none) :
    Reads meaning Stops (chain operand infixOf apply) (Chained Operand infixOf node) := by
  refine ⟨?_, ?_, ?_⟩
  · intro ts v rest read
    rw [chain] at read
    cases first : operand ts with
    | error e => simp only [first, reduceCtorEq] at read
    | ok next =>
        obtain ⟨left, ts'⟩ := next
        simp only [first] at read
        obtain ⟨front, e, rfl, spelled, means⟩ := reads.sound first
        exact chainLoop_sound reads composes (.one spelled) means read
  · intro front e rest spelled stops
    rw [chain_append reads composes infixStops spelled (weaker rest stops)]
    cases meaning e with
    | error e => rfl
    | ok left =>
        refine chainLoop_stops ?_
        rintro t behind rfl
        exact ends t behind stops
  · intro front e spelled
    cases spelled with
    | one spelled => exact reads.consumes spelled
    | more => simp

/-! ### Operators that do not associate -/

variable (operand infixOf apply)

def atMostOne : Parser τ ε α := fun ts =>
  match operand ts with
  | .error e => .error e
  | .ok (left, []) => .ok (left, [])
  | .ok (left, t :: rest) =>
      match infixOf t with
      | none => .ok (left, t :: rest)
      | some op =>
          match operand rest with
          | .error e => .error e
          | .ok (right, rest) => leaving (apply op left right) rest

/-- An operand, or two with an operator between them. -/
inductive AtMostOne (Operand : Grammar τ E) (infixOf : τ → Option ω) (node : ω → E → E → E) :
    Grammar τ E where
  | one {ts e} : Operand ts e → AtMostOne Operand infixOf node ts e
  | two {ls l t op rs r} : Operand ls l → infixOf t = some op → Operand rs r →
      AtMostOne Operand infixOf node (ls ++ t :: rs) (node op l r)

variable {operand infixOf apply}

theorem atMostOne_reads (reads : Reads meaning StopsOperand operand Operand)
    (composes : Compositional meaning node apply)
    (infixStops : ∀ t op rest, infixOf t = some op → StopsOperand (t :: rest))
    (weaker : ∀ rest, Stops rest → StopsOperand rest)
    (ends : ∀ t rest, Stops (t :: rest) → infixOf t = none) :
    Reads meaning Stops (atMostOne operand infixOf apply) (AtMostOne Operand infixOf node) := by
  refine ⟨?_, ?_, ?_⟩
  · intro ts v rest read
    rw [atMostOne] at read
    cases first : operand ts with
    | error e => simp only [first, reduceCtorEq] at read
    | ok next =>
        obtain ⟨left, ts'⟩ := next
        simp only [first] at read
        obtain ⟨front, e, rfl, spelled, means⟩ := reads.sound first
        cases ts' with
        | nil =>
            cases read
            exact ⟨front, e, rfl, .one spelled, means⟩
        | cons t ts' =>
            simp only at read
            cases between : infixOf t with
            | none =>
                rw [between] at read
                cases read
                exact ⟨front, e, rfl, .one spelled, means⟩
            | some op =>
                simp only [between] at read
                cases second : operand ts' with
                | error e => simp only [second, reduceCtorEq] at read
                | ok next =>
                    obtain ⟨right, ts''⟩ := next
                    simp only [second] at read
                    obtain ⟨front', e', rfl, spelled', means'⟩ := reads.sound second
                    cases applied : apply op left right with
                    | error e => simp only [applied, leaving_error, reduceCtorEq] at read
                    | ok value =>
                        rw [applied] at read
                        cases read
                        refine ⟨front ++ t :: front', node op e e', by simp,
                          .two spelled between spelled', ?_⟩
                        rw [composes op e e', means, means']
                        exact applied
  · intro front e rest spelled stops
    cases spelled with
    | one spelled =>
        rw [atMostOne, reads.complete spelled (weaker rest stops)]
        cases meaning e with
        | error e => rfl
        | ok left =>
            cases rest with
            | nil => rfl
            | cons t rest => simp only [leaving_ok, ends t rest stops]
    | @two ls l t op rs r spelled between spelled' =>
        rw [atMostOne, List.append_assoc, List.cons_append,
          reads.complete spelled (infixStops t op _ between), composes op l r]
        cases meaning l with
        | error e => rfl
        | ok left =>
            simp only [leaving_ok, between, reads.complete spelled' (weaker rest stops)]
            cases meaning r <;> rfl
  · intro front e spelled
    cases spelled with
    | one spelled => exact reads.consumes spelled
    | two => simp

end Operators

end Bemtvi.Parsing
