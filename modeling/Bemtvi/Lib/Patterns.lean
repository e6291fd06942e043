/-
Module: Bemtvi.Lib.Patterns
Purpose: What a string pattern with captures means, apart from any way to search for a match: one
  item leads from a place and the captures so far to another, and a pattern is a chain of items.
  And what a search owes to that meaning: an attempt that explores every way through one item, and
  that leaves the captures alone when it fails, explores every way through the chain.
Trusted boundary: human-reviewed spec
Main exports: Item, Step, Matches, balancedEnd, balancedEnd_iff, Attempt, Explores, Answers, Tries,
  Explores.single, Explores.answers
-/
import Mathlib

namespace Bemtvi.Patterns

/-- How often a single element's item may stand. -/
inductive Rep where
  | once
  | optional
  | many
  | atLeastOnce
  | few
deriving Repr, DecidableEq

def Rep.Allows : Rep → Nat → Prop
  | .once, n => n = 1
  | .optional, n => n ≤ 1
  | .many, _ => True
  | .atLeastOnce, n => 1 ≤ n
  | .few, _ => True

inductive Item (α : Type) where
  | single (test : α → Bool) (rep : Rep)
  | openCapture
  | positionCapture
  | closeCapture
  /-- From an opener to the closer that is its own. -/
  | balance (opener closer : α)
  /-- The element before fails the test, the one behind passes it. -/
  | frontier (test : α → Bool)
  /-- What a capture holds, once more. -/
  | back (index : Nat)
  | atEnd

inductive Extent where
  | unfinished
  | position
  | closed (length : Nat)
deriving Repr, DecidableEq

structure Capture where
  init : Nat
  extent : Extent
deriving Repr, DecidableEq

/-! ### Balance -/

section Balance

variable {α : Type} [DecidableEq α]

/-- How much deeper a stretch goes: an element that is both opener and closer closes. -/
def rise (opener closer : α) : List α → Int
  | [] => 0
  | a :: rest =>
      (if a = closer then -1 else if a = opener then 1 else 0) + rise opener closer rest

/-- A stretch that never gets back to its start's level and ends on it. -/
def Enclosed (opener closer : α) (level : Int) (inner : List α) : Prop :=
  (∀ front, front <+: inner → 1 ≤ level + rise opener closer front) ∧
    level + rise opener closer inner = 1

/-- How much is taken up to the closer that leaves the level, which is counted down to zero. -/
def balancedEnd (opener closer : α) : Nat → List α → Option Nat
  | _, [] => none
  | level, a :: rest =>
      if a = closer then
        if level = 1 then some 1 else (balancedEnd opener closer (level - 1) rest).map (· + 1)
      else if a = opener then (balancedEnd opener closer (level + 1) rest).map (· + 1)
      else (balancedEnd opener closer level rest).map (· + 1)

variable {closer opener : α}

theorem enclosed_cons {a : α} {level : Int} {inner : List α} :
    Enclosed opener closer level (a :: inner) ↔ 1 ≤ level ∧
      Enclosed opener closer
        (level + if a = closer then -1 else if a = opener then 1 else 0) inner := by
  constructor
  · rintro ⟨above, ends⟩
    refine ⟨by simpa [rise] using above [] List.nil_prefix, ?_, ?_⟩
    · intro front begins
      have deep := above (a :: front) (List.cons_prefix_cons.2 ⟨rfl, begins⟩)
      simp only [rise] at deep
      omega
    · simp only [rise] at ends
      omega
  · rintro ⟨first, above, ends⟩
    refine ⟨?_, ?_⟩
    · intro front begins
      rcases List.prefix_cons_iff.1 begins with rfl | ⟨front, rfl, inside⟩
      · simpa [rise] using first
      · have deep := above front inside
        simp only [rise]
        omega
    · simp only [rise]
      omega

theorem enclosed_nil {level : Int} : Enclosed opener closer level [] ↔ level = 1 := by
  constructor
  · rintro ⟨-, ends⟩
    simpa [rise] using ends
  · rintro rfl
    refine ⟨?_, by simp [rise]⟩
    intro front begins
    rw [List.prefix_nil.1 begins]
    simp [rise]

/-- The count stops at the closer that is the opener's own, and nowhere else. -/
theorem balancedEnd_iff {level taken : Nat} {rest : List α} (deep : 1 ≤ level) :
    balancedEnd opener closer level rest = some taken ↔ ∃ inner behind,
      rest = inner ++ closer :: behind ∧ taken = inner.length + 1 ∧
        Enclosed opener closer level inner := by
  induction rest generalizing level taken with
  | nil => simp [balancedEnd]
  | cons a rest ih =>
      have longer : ∀ {next : Nat}, 1 ≤ next → (a = closer → level ≠ 1) →
          (next : Int) = level + (if a = closer then -1 else if a = opener then 1 else 0) →
          ((balancedEnd opener closer next rest).map (· + 1) = some taken ↔ ∃ inner behind,
            a :: rest = inner ++ closer :: behind ∧ taken = inner.length + 1 ∧
              Enclosed opener closer level inner) := by
        intro next below inside same
        rw [Option.map_eq_some_iff]
        constructor
        · rintro ⟨count, found, rfl⟩
          obtain ⟨inner, behind, rfl, rfl, enclosed⟩ := (ih below).1 found
          exact ⟨a :: inner, behind, rfl, rfl,
            enclosed_cons.2 ⟨by omega, same ▸ enclosed⟩⟩
        · rintro ⟨inner, behind, whole, rfl, enclosed⟩
          cases inner with
          | nil =>
              rw [List.nil_append, List.cons.injEq] at whole
              have level_one := enclosed_nil.1 enclosed
              exact absurd (by omega : level = 1) (inside whole.1)
          | cons b inner =>
              rw [List.cons_append, List.cons.injEq] at whole
              obtain ⟨rfl, rfl⟩ := whole
              refine ⟨inner.length + 1, (ih below).2 ⟨inner, behind, rfl, rfl, ?_⟩, rfl⟩
              rw [same]
              exact (enclosed_cons.1 enclosed).2
      rw [balancedEnd]
      split
      · next closes =>
          split
          · next ends =>
              constructor
              · rintro ⟨rfl⟩
                exact ⟨[], rest, by rw [closes]; rfl, rfl, enclosed_nil.2 (by omega)⟩
              · rintro ⟨inner, behind, whole, rfl, enclosed⟩
                cases inner with
                | nil => rfl
                | cons b inner =>
                    rw [List.cons_append, List.cons.injEq] at whole
                    have above := enclosed.1 [b] (List.cons_prefix_cons.2 ⟨rfl, List.nil_prefix⟩)
                    rw [← whole.1, closes] at above
                    simp only [rise, if_true] at above
                    omega
          · next inside =>
              exact longer (by omega) (fun _ => inside) (by rw [if_pos closes]; omega)
      · next stays =>
          split
          · next opens =>
              exact longer (by omega) (fun same => absurd same stays)
                (by rw [if_neg stays, if_pos opens]; omega)
          · next other =>
              exact longer deep (fun same => absurd same stays)
                (by rw [if_neg stays, if_neg other]; omega)

end Balance

/-! ### Meaning -/

variable {α : Type} [DecidableEq α]

/-- A run of elements that all pass a test. -/
def Run (src : List α) (test : α → Bool) (s n : Nat) : Prop :=
  ∀ i < n, ∃ c, src[s + i]? = some c ∧ test c = true

/-- One item, from the captures and the place before it to those behind it; `pad` stands in front of
the text and behind it. -/
inductive Step (src : List α) (pad : α) : Item α → List Capture → Nat → List Capture → Nat → Prop
    where
  | single {test rep caps s n} : rep.Allows n → Run src test s n →
      Step src pad (.single test rep) caps s caps (s + n)
  | openCapture {caps s} : Step src pad .openCapture caps s (caps ++ [⟨s, .unfinished⟩]) s
  | positionCapture {caps s} : Step src pad .positionCapture caps s (caps ++ [⟨s, .position⟩]) s
  /-- The capture opened last is closed. -/
  | closeCapture {front back init s} : (∀ capture ∈ back, capture.extent ≠ .unfinished) →
      Step src pad .closeCapture (front ++ ⟨init, .unfinished⟩ :: back) s
        (front ++ ⟨init, .closed (s - init)⟩ :: back) s
  | balance {opener closer caps s inner behind} :
      src.drop s = opener :: (inner ++ closer :: behind) → Enclosed opener closer 1 inner →
      Step src pad (.balance opener closer) caps s caps (s + inner.length + 2)
  | frontier {test caps s} : test (if s = 0 then pad else src.getD (s - 1) pad) = false →
      test (src.getD s pad) = true → Step src pad (.frontier test) caps s caps s
  | back {caps index init length s} : caps[index]? = some ⟨init, .closed length⟩ →
      length ≤ src.length - s → (src.drop s).take length = (src.drop init).take length →
      Step src pad (.back index) caps s caps (s + length)
  | atEnd {caps} : Step src pad .atEnd caps src.length caps src.length

/-- A pattern's items one after the other. -/
inductive Matches (src : List α) (pad : α) : List (Item α) → List Capture → Nat → Nat → Prop where
  | nil {caps s} : Matches src pad [] caps s s
  | cons {item items caps s caps' s' e} : Step src pad item caps s caps' s' →
      Matches src pad items caps' s' e → Matches src pad (item :: items) caps s e

/-! ### Search -/

/-- Where an attempt got to, and the captures it leaves. -/
abbrev Attempt := Option Nat × List Capture

/-- An attempt at one item with the continuation `go` behind it: it succeeds exactly where some way
through the item lets the continuation succeed, and a failure leaves the captures as they were. -/
structure Explores (src : List α) (pad : α) (item : Item α)
    (go : List Capture → Nat → Attempt) (caps : List Capture) (s : Nat) (attempt : Attempt) :
    Prop where
  sound : ∀ e, attempt.1 = some e →
    ∃ caps' s', Step src pad item caps s caps' s' ∧ (go caps' s').1 = some e
  complete : ∀ caps' s', Step src pad item caps s caps' s' → (go caps' s').1.isSome →
    attempt.1.isSome
  restores : attempt.1 = none → attempt.2 = caps

/-- A search's attempt at a pattern that is spelled by the chains of `Parses`: sound, complete where
the pattern `Fits` the search, and leaving the captures as they were when it fails. -/
structure Answers (src : List α) (pad : α) (Parses : List (Item α) → Prop) (Fits : Prop)
    (caps : List Capture) (s : Nat) (attempt : Attempt) : Prop where
  sound : ∀ e, attempt.1 = some e → ∃ items, Parses items ∧ Matches src pad items caps s e
  complete : Fits → ∀ items e, Parses items → Matches src pad items caps s e → attempt.1.isSome
  restores : attempt.1 = none → attempt.2 = caps

variable {src : List α} {pad : α} {item : Item α}

variable {attempt : Attempt} {caps : List Capture} {s : Nat} {test : α → Bool}
  {go : Nat → Attempt} {ways : Nat → Prop} {Fits : Prop} {Parses : List (Item α) → Prop}

/-- An item with one way through it. -/
theorem Explores.only {go : List Capture → Nat → Attempt} {caps' : List Capture} {s' : Nat}
    (step : Step src pad item caps s caps' s')
    (alone : ∀ caps'' s'', Step src pad item caps s caps'' s'' → caps'' = caps' ∧ s'' = s')
    (same : attempt.1 = (go caps' s').1) (restores : attempt.1 = none → attempt.2 = caps) :
    Explores src pad item go caps s attempt := by
  refine ⟨?_, ?_, restores⟩
  · intro e reached
    exact ⟨caps', s', step, same ▸ reached⟩
  · intro caps'' s'' step' reached
    obtain ⟨rfl, rfl⟩ := alone caps'' s'' step'
    rw [same]
    exact reached

/-- An item with no way through it. -/
theorem Explores.none {go : List Capture → Nat → Attempt}
    (blocked : ∀ caps' s', ¬ Step src pad item caps s caps' s') :
    Explores src pad item go caps s (.none, caps) := by
  refine ⟨?_, ?_, fun _ => rfl⟩
  · intro e reached
    cases reached
  · intro caps' s' step
    exact absurd step (blocked caps' s')

/-! ### Repetition -/

omit [DecidableEq α] in
theorem run_iff {n : Nat} : Run src test s n ↔ n ≤ ((src.drop s).takeWhile test).length := by
  have along : Run src test s n ↔ ∀ i < n, ∃ c, (src.drop s)[i]? = some c ∧ test c = true := by
    simp only [Run, List.getElem?_drop]
  rw [along]
  clear along
  generalize src.drop s = left
  induction left generalizing n with
  | nil =>
      rw [List.takeWhile_nil, List.length_nil, Nat.le_zero]
      constructor
      · intro run
        by_contra more
        obtain ⟨c, first, -⟩ := run 0 (Nat.pos_of_ne_zero more)
        cases first
      · rintro rfl i below
        cases below
  | cons c left ih =>
      cases n with
      | zero => simp
      | succ n =>
          rw [List.takeWhile_cons]
          constructor
          · intro run
            obtain ⟨d, first, passes⟩ := run 0 (by omega)
            cases first
            rw [if_pos passes, List.length_cons]
            exact Nat.succ_le_succ (ih.1 fun i below => run (i + 1) (by omega))
          · intro short i below
            split at short
            · next passes =>
                cases i with
                | zero => exact ⟨c, rfl, passes⟩
                | succ i => exact ih.2 (Nat.le_of_succ_le_succ short) i (by omega)
            · simp at short

/-- An attempt at several ways on with `go`, of which those in `ways` are tried. -/
structure Tries (ways : Nat → Prop) (go : Nat → Attempt) (caps : List Capture)
    (attempt : Attempt) : Prop where
  sound : ∀ e, attempt.1 = some e → ∃ n, ways n ∧ (go n).1 = some e
  complete : ∀ n, ways n → (go n).1.isSome → attempt.1.isSome
  restores : attempt.1 = none → attempt.2 = caps

theorem Tries.one (way : Nat) (restores : (go way).1 = none → (go way).2 = caps) :
    Tries (· = way) go caps (go way) := by
  refine ⟨fun e reached => ⟨way, rfl, reached⟩, ?_, restores⟩
  rintro n rfl reached
  exact reached

theorem Tries.nothing : Tries (fun _ => False) go caps (.none, caps) := by
  refine ⟨?_, ?_, fun _ => rfl⟩
  · intro e reached
    cases reached
  · intro n among
    exact among.elim

/-- The same ways, counted from one. -/
theorem Tries.shift (tries : Tries ways (fun n => go (n + 1)) caps attempt) :
    Tries (fun n => ∃ m, n = m + 1 ∧ ways m) go caps attempt := by
  refine ⟨?_, ?_, tries.restores⟩
  · intro e reached
    obtain ⟨m, among, further⟩ := tries.sound e reached
    exact ⟨m + 1, ⟨m, rfl, among⟩, further⟩
  · rintro n ⟨m, rfl, among⟩ further
    exact tries.complete m among further

theorem Tries.same {ways' : Nat → Prop} (tries : Tries ways go caps attempt)
    (same : ∀ n, ways n ↔ ways' n) : Tries ways' go caps attempt := by
  obtain rfl : ways = ways' := funext fun n => propext (same n)
  exact tries

/-- One way first, the others where it fails. -/
theorem Tries.first {others : Attempt} (rest : Tries ways go caps others) (way : Nat)
    (takes : (go way).1.isSome → attempt.1 = (go way).1)
    (leaves : (go way).1 = .none → attempt = others) :
    Tries (fun n => n = way ∨ ways n) go caps attempt := by
  cases tried : (go way).1 with
  | none =>
      rw [leaves tried]
      refine ⟨?_, ?_, rest.restores⟩
      · intro e reached
        obtain ⟨n, among, further⟩ := rest.sound e reached
        exact ⟨n, .inr among, further⟩
      · rintro n (rfl | among) further
        · rw [tried] at further
          cases further
        · exact rest.complete n among further
  | some e =>
      have same := takes (by rw [tried]; rfl)
      refine ⟨?_, ?_, ?_⟩
      · intro e' reached
        exact ⟨way, .inl rfl, same ▸ reached⟩
      · intro n _ _
        rw [same, tried]
        rfl
      · intro failed
        rw [same, tried] at failed
        cases failed

/-- A repetition is explored by trying the counts it allows. -/
theorem Explores.single {rep : Rep} {go : List Capture → Nat → Attempt}
    (tries : Tries (fun n => rep.Allows n ∧ n ≤ ((src.drop s).takeWhile test).length)
      (fun n => go caps (s + n)) caps attempt) :
    Explores src pad (.single test rep) go caps s attempt := by
  refine ⟨?_, ?_, tries.restores⟩
  · intro e reached
    obtain ⟨n, ⟨allows, short⟩, further⟩ := tries.sound e reached
    exact ⟨caps, s + n, .single allows (run_iff.2 short), further⟩
  · intro caps' s' step further
    cases step with
    | single allows run => exact tries.complete _ ⟨allows, run_iff.1 run⟩ further

/-! ### Patterns -/

/-- One item explored, and the pattern behind it answered for wherever the item leads. -/
theorem Explores.answers {go : List Capture → Nat → Attempt} {Behind : List (Item α) → Prop}
    {FitsBehind : Prop} (explores : Explores src pad item go caps s attempt)
    (behind : ∀ caps' s', Answers src pad Behind FitsBehind caps' s' (go caps' s'))
    (spells : ∀ items, Parses items ↔ ∃ rest, items = item :: rest ∧ Behind rest)
    (fits : Fits → FitsBehind) : Answers src pad Parses Fits caps s attempt := by
  refine ⟨?_, ?_, explores.restores⟩
  · intro e reached
    obtain ⟨caps', s', step, further⟩ := explores.sound e reached
    obtain ⟨rest, spelled, matched⟩ := (behind caps' s').sound e further
    exact ⟨item :: rest, (spells _).2 ⟨rest, rfl, spelled⟩, .cons step matched⟩
  · intro fit items e whole matched
    obtain ⟨rest, rfl, spelled⟩ := (spells items).1 whole
    cases matched with
    | cons step matched =>
        exact explores.complete _ _ step ((behind _ _).complete (fits fit) rest e spelled matched)

/-- A pattern that spells nothing. -/
theorem Answers.malformed (spells : ∀ items, ¬ Parses items) :
    Answers src pad Parses Fits caps s (.none, caps) := by
  refine ⟨?_, ?_, fun _ => rfl⟩
  · intro e reached
    cases reached
  · intro _ items e spelled _
    exact absurd spelled (spells items)

/-- The empty pattern. -/
theorem Answers.empty (spells : ∀ items, Parses items ↔ items = []) :
    Answers src pad Parses Fits caps s (some s, caps) := by
  refine ⟨?_, fun _ _ _ _ _ => rfl, fun failed => nomatch failed⟩
  rintro e ⟨rfl⟩
  exact ⟨[], (spells []).2 rfl, .nil⟩

end Bemtvi.Patterns
