/-
Module: Bemtvi.Core.Globs
Purpose: A comma-separated list of globs, split where a comma is no part of a glob.
Trusted boundary: human-reviewed model of `split_patterns` (bemtvi-core/src/glob.rs:456-523); a slice of
  the list is the characters since the last separator
Main exports: splitPatterns, Complete, Entry, split_patterns_join
-/
import Bemtvi.Core.FileArgs

namespace Bemtvi.Core.Globs

open Utf8 ExLine

/-! ### The scan -/

/-- What the scan keeps of the characters it has passed. -/
structure Scan where
  depth : Nat
  /-- How many opening braces are escaped since an unescaped closing brace. -/
  lit : Nat
  escaped : Bool
deriving Repr, DecidableEq

namespace Scan

/-- The scan at the start of a list. -/
def start : Scan := ⟨0, 0, false⟩

/-- The scan behind one more character. -/
def step (s : Scan) (c : Char) : Scan :=
  if s.escaped then { s with escaped := false, lit := if c = '\x7b' then s.lit + 1 else s.lit }
  else if c = '\\' then { s with escaped := true }
  else if c = '\x7b' then { s with depth := s.depth + 1 }
  else if c = '\x7d' then { s with depth := s.depth - 1, lit := 0 }
  else s

/-- Whether the character separates two patterns. -/
def separates (s : Scan) (c : Char) : Bool :=
  !s.escaped && c == ',' && s.depth == 0 && s.lit == 0

/-- The scan behind a text. -/
def run (s : Scan) (text : Text) : Scan := text.foldl step s

@[simp] theorem run_nil (s : Scan) : s.run [] = s := rfl

@[simp] theorem run_cons (s : Scan) (c : Char) (text : Text) :
    s.run (c :: text) = (s.step c).run text := rfl

theorem run_append (s : Scan) (front back : Text) : s.run (front ++ back) = (s.run front).run back :=
  List.foldl_append

end Scan

/-- A pattern, if there is one. -/
def keep (piece : Text) : List Text := if trim piece = [] then [] else [trim piece]

/-- The loop of `split_patterns`, with the characters since the last separator. -/
def splitLoop (s : Scan) (piece : Text) : Text → List Text
  | [] => keep piece
  | c :: list =>
      if s.separates c then keep piece ++ splitLoop (s.step c) [] list
      else splitLoop (s.step c) (piece ++ [c]) list

/-- `split_patterns`. -/
def splitPatterns (list : Text) : List Text := splitLoop .start [] list

/-! ### Globs -/

/-- A character a class may hold without misleading the scan. -/
def isClassChar (c : Char) : Bool :=
  !(['\\', '\x7b', '\x7d', ','].contains c)

/-- A glob that closes what it opens, at the top or inside an alternation, with its commas inside
alternations or behind a backslash. -/
inductive Complete : (inside : Bool) → Text → Prop where
  | nil (inside : Bool) : Complete inside []
  | char {inside : Bool} {c : Char} {glob : Text} (plain : isClassChar c = true) (bracket : c ≠ '[')
      (rest : Complete inside glob) : Complete inside (c :: glob)
  /-- A brace that closes nothing. -/
  | stray {glob : Text} (rest : Complete false glob) : Complete false ('\x7d' :: glob)
  | comma {glob : Text} (rest : Complete true glob) : Complete true (',' :: glob)
  | escape {inside : Bool} (c : Char) {glob : Text} (rest : Complete inside glob) :
      Complete inside ('\\' :: c :: glob)
  | alternation {inside : Bool} {body glob : Text} (choices : Complete true body)
      (rest : Complete inside glob) : Complete inside ('\x7b' :: (body ++ '\x7d' :: glob))
  | charClass {inside : Bool} {body glob : Text} (plain : ∀ c ∈ body, isClassChar c = true)
      (rest : Complete inside glob) : Complete inside ('[' :: (body ++ ']' :: glob))

/-- No escaped opening brace is left open. -/
def ClosesLiterals (glob : Text) : Prop := (Scan.start.run glob).lit = 0

/-- No character of the text separates. -/
def Whole (s : Scan) : Text → Prop
  | [] => True
  | c :: text => s.separates c = false ∧ Whole (s.step c) text

variable {s : Scan}

theorem Whole.append {front back : Text} (first : Whole s front)
    (second : Whole (s.run front) back) : Whole s (front ++ back) := by
  induction front generalizing s with
  | nil => exact second
  | cons c front ih => exact ⟨first.1, ih first.2 second⟩

/-- What is passed without a separator joins the piece. -/
theorem splitLoop_whole {text : Text} (whole : Whole s text) (piece list : Text) :
    splitLoop s piece (text ++ list) = splitLoop (s.run text) (piece ++ text) list := by
  induction text generalizing s piece with
  | nil => rw [List.nil_append, List.append_nil, Scan.run_nil]
  | cons c text ih =>
      obtain ⟨joins, whole⟩ := whole
      rw [List.cons_append, splitLoop, joins, if_neg Bool.false_ne_true, ih whole, List.append_assoc]
      rfl

/-- A plain character leaves the scan as it is. -/
theorem step_plain {c : Char} (awake : s.escaped = false) (plain : isClassChar c = true) :
    s.step c = s ∧ s.separates c = false := by
  simp only [isClassChar, Bool.not_eq_true', List.contains_eq_mem, List.mem_cons, List.not_mem_nil,
    or_false, decide_eq_false_iff_not, not_or] at plain
  obtain ⟨backslash, opening, closing, comma⟩ := plain
  constructor
  · rw [Scan.step, awake, if_neg Bool.false_ne_true, if_neg backslash, if_neg opening, if_neg closing]
  · simp [Scan.separates, comma]

theorem run_plain {text : Text} (awake : s.escaped = false)
    (plain : ∀ c ∈ text, isClassChar c = true) : s.run text = s ∧ Whole s text := by
  induction text with
  | nil => exact ⟨rfl, trivial⟩
  | cons c text ih =>
      rw [List.forall_mem_cons] at plain
      obtain ⟨same, joins⟩ := step_plain awake plain.1
      obtain ⟨same', whole⟩ := ih plain.2
      rw [Scan.run_cons, Whole, same]
      exact ⟨same', joins, whole⟩

/-- Where a glob is scanned from: at the top, or inside an alternation. -/
def Scan.At (s : Scan) (inside : Bool) : Prop :=
  s.escaped = false ∧ (if inside then 0 < s.depth else s.depth = 0)

/-- **A complete glob is passed without a separator, and closes the alternations it opens.** -/
theorem Complete.scanned {inside : Bool} {glob : Text} (complete : Complete inside glob)
    (here : s.At inside) :
    Whole s glob ∧ (s.run glob).escaped = false ∧ (s.run glob).depth = s.depth := by
  induction complete generalizing s with
  | nil inside => exact ⟨trivial, here.1, rfl⟩
  | char plain bracket rest ih =>
      obtain ⟨same, joins⟩ := step_plain here.1 plain
      obtain ⟨whole, awake, depth⟩ := ih here
      rw [Whole, Scan.run_cons, same]
      exact ⟨⟨joins, whole⟩, awake, depth⟩
  | stray rest ih =>
      obtain ⟨awake, top⟩ := here
      have closed : s.step '\x7d' = { s with depth := s.depth - 1, lit := 0 } := by
        rw [Scan.step, awake]
        rfl
      have depth : s.depth - 1 = s.depth := by
        rw [if_neg Bool.false_ne_true] at top
        rw [top]
      obtain ⟨whole, awake', depth'⟩ := ih (s := s.step '\x7d')
        (by rw [closed]; exact ⟨awake, by rw [depth]; exact top⟩)
      have joins : s.separates '\x7d' = false := by simp [Scan.separates]
      refine ⟨⟨joins, whole⟩, awake', ?_⟩
      rw [Scan.run_cons, depth', closed, depth]
  | comma rest ih =>
      obtain ⟨awake, deep⟩ := here
      rw [if_pos rfl] at deep
      have same : s.step ',' = s := by
        rw [Scan.step, awake]
        rfl
      have joins : s.separates ',' = false := by
        simp [Scan.separates, Nat.ne_of_gt deep]
      obtain ⟨whole, awake', depth⟩ := ih ⟨awake, by rwa [if_pos rfl]⟩
      rw [Whole, Scan.run_cons, same]
      exact ⟨⟨joins, whole⟩, awake', depth⟩
  | escape c rest ih =>
      obtain ⟨awake, deep⟩ := here
      have passed : (s.step '\\').step c =
          { s with escaped := false, lit := if c = '\x7b' then s.lit + 1 else s.lit } := by
        simp [Scan.step, awake]
      obtain ⟨whole, awake', depth⟩ := ih (s := (s.step '\\').step c)
        (by rw [passed]; exact ⟨rfl, deep⟩)
      have first : s.separates '\\' = false := by simp [Scan.separates]
      have second : (s.step '\\').separates c = false := by simp [Scan.separates, Scan.step, awake]
      refine ⟨⟨first, second, whole⟩, awake', ?_⟩
      rw [Scan.run_cons, Scan.run_cons, depth, passed]
  | @alternation inside body glob choices rest ih ih' =>
      obtain ⟨awake, deep⟩ := here
      have opened : s.step '\x7b' = { s with depth := s.depth + 1 } := by
        rw [Scan.step, awake]
        rfl
      obtain ⟨whole, awake', depth⟩ := ih (s := s.step '\x7b')
        (by rw [opened]; exact ⟨awake, by rw [if_pos rfl]; exact Nat.succ_pos _⟩)
      generalize behind : (s.step '\x7b').run body = s' at whole awake' depth
      rw [opened] at depth
      have closed : s'.step '\x7d' = { s' with depth := s.depth, lit := 0 } := by
        rw [Scan.step, awake', depth]
        rfl
      obtain ⟨whole', awake'', depth'⟩ := ih' (s := s'.step '\x7d')
        (by rw [closed]; exact ⟨awake', deep⟩)
      have first : s.separates '\x7b' = false := by simp [Scan.separates]
      have second : s'.separates '\x7d' = false := by simp [Scan.separates]
      have run : s.run ('\x7b' :: (body ++ '\x7d' :: glob)) = (s'.step '\x7d').run glob := by
        rw [Scan.run_cons, Scan.run_append, behind, Scan.run_cons]
      rw [run]
      refine ⟨⟨first, whole.append ?_⟩, awake'', ?_⟩
      · rw [behind]
        exact ⟨second, whole'⟩
      · rw [depth', closed]
  | @charClass inside body glob plain rest ih =>
      have brackets : isClassChar '[' = true ∧ isClassChar ']' = true := ⟨rfl, rfl⟩
      obtain ⟨whole, awake, depth⟩ := ih here
      have all : ∀ c ∈ '[' :: (body ++ [']']), isClassChar c = true := by
        rw [List.forall_mem_cons, List.forall_mem_append, List.forall_mem_singleton]
        exact ⟨brackets.1, plain, brackets.2⟩
      obtain ⟨same, passed⟩ := run_plain here.1 all
      have parts : '[' :: (body ++ ']' :: glob) = ('[' :: (body ++ [']'])) ++ glob := by simp
      rw [parts, Scan.run_append, same]
      exact ⟨passed.append (same.symm ▸ whole), awake, depth⟩

/-! ### Lists of globs -/

/-- A glob of a list, with the spaces about it. -/
structure Entry where
  before : Nat
  glob : Text
  after : Nat
deriving Repr, DecidableEq

namespace Entry

/-- The entry as it is typed. -/
def typed (entry : Entry) : Text :=
  List.replicate entry.before ' ' ++ (entry.glob ++ List.replicate entry.after ' ')

/-- A glob by itself: not empty, without white space at its ends, and complete. -/
structure Valid (entry : Entry) : Prop where
  some_glob : entry.glob ≠ []
  start : Stops isWhitespace entry.glob
  finish : Stops isWhitespace entry.glob.reverse
  complete : Complete false entry.glob

end Entry

/-- The list that is typed. -/
def joined (entries : List Entry) : Text := List.intercalate [','] (entries.map (·.typed))

theorem spaces_plain {n : Nat} {p : Char → Prop} (space : p ' ') : ∀ c ∈ List.replicate n ' ', p c := by
  intro c member
  rw [List.eq_of_mem_replicate member]
  exact space

section
variable {entry : Entry}

/-- Trimming an entry leaves its glob. -/
theorem Entry.Valid.trim (valid : entry.Valid) : trim entry.typed = entry.glob := by
  have white (n : Nat) : ∀ c ∈ List.replicate n ' ', isWhitespace c = true := spaces_plain rfl
  have start : Stops isWhitespace (entry.glob ++ List.replicate entry.after ' ') := by
    obtain ⟨c, more, whole⟩ := List.exists_cons_of_ne_nil valid.some_glob
    have first := valid.start
    rw [whole] at first ⊢
    exact .cons (first c rfl) _
  rw [Utf8.trim, Entry.typed, trimStart_append (white _) start, trimEnd_append (white _), trimEnd,
    rdropWhile_eq_self.2 valid.finish]

theorem Entry.Valid.keep (valid : entry.Valid) : keep entry.typed = [entry.glob] := by
  rw [Globs.keep, valid.trim, if_neg valid.some_glob]

/-- The scan of an entry. -/
theorem Entry.Valid.scanned (valid : entry.Valid) :
    Whole .start entry.typed ∧
      (ClosesLiterals entry.glob → Scan.start.run entry.typed = .start) := by
  obtain ⟨whole, awake, depth⟩ := valid.complete.scanned (s := .start) ⟨rfl, rfl⟩
  have plain (n : Nat) : ∀ c ∈ List.replicate n ' ', isClassChar c = true := spaces_plain rfl
  obtain ⟨before, passed⟩ := run_plain (s := .start) rfl (plain entry.before)
  obtain ⟨after, passed'⟩ := run_plain awake (plain entry.after)
  constructor
  · rw [Entry.typed]
    refine passed.append ?_
    rw [before]
    exact whole.append passed'
  · intro closes
    rw [Entry.typed, Scan.run_append, before, Scan.run_append, after]
    have closed : (Scan.start.run entry.glob).lit = 0 := closes
    generalize Scan.start.run entry.glob = s at awake depth closed
    rw [Scan.start, Scan.mk.injEq]
    exact ⟨depth, closed, awake⟩

end

theorem separates_start : Scan.start.separates ',' = true := rfl

theorem step_start : Scan.start.step ',' = .start := rfl

/-- **A list of complete globs is split into them**, if every escaped opening brace of a glob that is not
the last is behind it closed by a brace. -/
theorem split_patterns_join (entries : List Entry) (valid : ∀ entry ∈ entries, entry.Valid)
    (closed : ∀ entry ∈ entries.dropLast, ClosesLiterals entry.glob) :
    splitPatterns (joined entries) = entries.map (·.glob) := by
  induction entries with
  | nil => rfl
  | cons entry entries ih =>
      rw [List.forall_mem_cons] at valid
      obtain ⟨here, valid⟩ := valid
      obtain ⟨whole, rests⟩ := here.scanned
      cases entries with
      | nil =>
          have loop := splitLoop_whole whole [] []
          rw [List.append_nil, List.nil_append] at loop
          rw [joined, List.map_singleton, List.intercalate_singleton, splitPatterns, loop, splitLoop,
            here.keep]
          rfl
      | cons next entries =>
          rw [List.dropLast_cons_cons, List.forall_mem_cons] at closed
          have rest := ih valid closed.2
          have parts : joined (entry :: next :: entries) =
              entry.typed ++ ',' :: joined (next :: entries) := by
            rw [joined, List.map_cons, List.map_cons, List.intercalate_cons_cons,
              List.append_assoc]
            rfl
          rw [parts, splitPatterns, splitLoop_whole whole, rests closed.1, splitLoop, separates_start,
            if_pos rfl, step_start, List.nil_append, here.keep]
          exact congrArg (entry.glob :: ·) rest

theorem split_patterns_join_braces :
    splitPatterns (joined [⟨0, "\x7ba,b\x7d".toList, 1⟩, ⟨1, "\\,".toList, 0⟩]) =
      ["\x7ba,b\x7d".toList, "\\,".toList] := by
  have braces : Complete false ('\x7b' :: (['a', ',', 'b'] ++ '\x7d' :: [])) :=
    .alternation (.char rfl (by decide) (.comma (.char rfl (by decide) (.nil true)))) (.nil false)
  have comma : Complete false ['\\', ','] := .escape ',' (.nil false)
  refine split_patterns_join [⟨0, "\x7ba,b\x7d".toList, 1⟩, ⟨1, "\\,".toList, 0⟩] ?_ ?_
  · rw [List.forall_mem_cons, List.forall_mem_singleton]
    exact ⟨⟨by decide, .cons rfl _, .cons rfl _, braces⟩, by decide, .cons rfl _, .cons rfl _, comma⟩
  · rw [List.dropLast_cons_cons, List.dropLast_singleton, List.forall_mem_singleton]
    rfl

/-- An escaped opening brace takes the next glob in. -/
theorem splitPatterns_literal :
    splitPatterns (joined [⟨0, "\\\x7b".toList, 0⟩, ⟨0, "b".toList, 0⟩]) = ["\\\x7b,b".toList] := by
  decide +kernel

end Bemtvi.Core.Globs
