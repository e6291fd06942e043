/-
Module: Bemtvi.Core.FileArgs
Purpose: An escaped file name on a command line, through the bar split, the trims, the expansion and
  the read options, to the path that is opened or written.
Trusted boundary: none
Main exports: isLoose, bareName, trimExArgs_argTail, executeExOne_fileLine, OpensNamed, WritesNamed,
  escaped_name_iff
-/
import Bemtvi.Core.ExCuts

namespace Bemtvi.Core.ExLine

open Utf8

/-! ### Escaped text -/

/-- A text with its characters escaped. -/
def escape (name : Text) : Text := name.flatMap escapeChar

/-- White space that is not escaped. -/
def isLoose (c : Char) : Bool := isWhitespace c && !isFnameEscaped c

/-- The name that is left when the loose white space at its ends is lost. -/
def bareName (name : Text) : Text := (name.rdropWhile isLoose).dropWhile isLoose

/-- What keeps a name from being read as an option or a home directory. -/
def guardOf (name : Text) : Text := if guarded name then ['.', '/'] else []

theorem escapeFileArg_eq (name : Text) : escapeFileArg name = guardOf name ++ escape name := rfl

@[simp] theorem escape_nil : escape [] = [] := rfl

theorem escape_cons (c : Char) (name : Text) : escape (c :: name) = escapeChar c ++ escape name :=
  List.flatMap_cons ..

theorem escape_concat (name : Text) (c : Char) : escape (name ++ [c]) = escape name ++ escapeChar c := by
  rw [escape, List.flatMap_append, escape, List.flatMap_singleton]

variable {c : Char} {s name : Text} {p : Char → Bool} {ed : Editor}

/-- A bar and a backslash are escaped. -/
theorem clean_of_not_escaped (plain : isFnameEscaped c = false) : c ≠ '|' ∧ c ≠ '\\' := by
  constructor
  · rintro rfl
    cases plain
  · rintro rfl
    cases plain

/-- **No bar of an escaped text separates commands.** -/
theorem scanBar_escape (lead : UInt8) (name rest : Text) :
    scanBar lead false 0 (escape name ++ rest) =
      (scanBar lead false 0 rest).map fun parts => (escape name ++ parts.1, parts.2) := by
  induction name with
  | nil => exact (Option.map_id' ..).symm
  | cons c name ih =>
      rw [escape_cons, escapeChar]
      split
      · -- The backslash passes the character by, whatever it is.
        have parts : ['\\', c] ++ escape name ++ rest = '\\' :: c :: (escape name ++ rest) := rfl
        rw [parts, scanBar, if_neg (by decide), decide_eq_true rfl, scanBar, ih]
        simp only [Option.map_map]
        rfl
      · next plain =>
          obtain ⟨bar, backslash⟩ := clean_of_not_escaped (Bool.eq_false_iff.2 plain)
          rw [List.singleton_append, List.cons_append, scanBar, if_neg bar, decide_eq_false backslash,
            ih, Option.map_map]
          rfl

/-- Escaped text expands to what it was escaped from. -/
theorem expandChars_escape (ed : Editor) (name : Text) : expandChars ed (escape name) = .ok name := by
  induction name with
  | nil => rw [escape_nil, expandChars]
  | cons c name ih =>
      rw [escape_cons, escapeChar]
      split
      · next escaped =>
          rw [List.cons_append, List.singleton_append, expandChars]
          rw [if_pos ⟨rfl, escaped⟩, List.tail_cons, List.headD_cons, ih]
          rfl
      · next plain =>
          have other : ∀ d : Char, isFnameEscaped d = true → c ≠ d := by
            rintro d escaped rfl
            exact plain escaped
          rw [List.singleton_append, expandChars]
          rw [if_neg (not_and_of_not_left _ (other '\\' rfl)),
            if_pos ⟨other '%' rfl, other '#' rfl⟩, ih]
          rfl

/-! ### Trims -/

/-- The start of an escaped text loses the loose white space. -/
theorem trimStart_escape (name : Text) : trimStart (escape name) = escape (name.dropWhile isLoose) := by
  induction name with
  | nil => rfl
  | cons c name ih =>
      rw [escape_cons]
      by_cases loose : isLoose c = true
      · rw [List.dropWhile_cons_of_pos loose, ← ih]
        simp only [isLoose, Bool.and_eq_true, Bool.not_eq_true'] at loose
        rw [escapeChar, loose.2, if_neg Bool.false_ne_true, trimStart, List.singleton_append,
          List.dropWhile_cons_of_pos loose.1]
        rfl
      · rw [List.dropWhile_cons_of_neg loose, escape_cons]
        refine trimStart_stops ?_
        rw [escapeChar]
        split
        · exact .cons rfl _
        · next plain =>
            refine .cons ?_ _
            rw [isLoose, Bool.eq_false_iff.2 plain, Bool.not_false, Bool.and_true] at loose
            exact Bool.eq_false_iff.2 loose

theorem backslashes_concat (s : Text) (c : Char) :
    backslashes (s ++ [c]) = if c = '\\' then backslashes s + 1 else 0 := by
  rw [backslashes, List.reverse_append, List.reverse_singleton, List.singleton_append,
    List.takeWhile_cons]
  split
  · next same => rw [if_pos (beq_iff_eq.1 same), List.length_cons, backslashes]
  · next other => rw [if_neg fun same => other (beq_iff_eq.2 same), List.length_nil]

/-- Escaped text ends with pairs of backslashes. -/
theorem backslashes_escape {pre : Text} (even : backslashes pre % 2 = 0) (name : Text) :
    backslashes (pre ++ escape name) % 2 = 0 := by
  induction name using List.reverseRecOn with
  | nil => rwa [escape_nil, List.append_nil]
  | append_singleton name c ih =>
      rw [escape_concat, ← List.append_assoc, escapeChar]
      split
      · next escaped =>
          have parts : ['\\', c] = ['\\'] ++ [c] := rfl
          rw [parts, ← List.append_assoc, backslashes_concat, backslashes_concat, if_pos rfl]
          split
          · omega
          · rfl
      · next plain =>
          obtain ⟨-, backslash⟩ := clean_of_not_escaped (Bool.eq_false_iff.2 plain)
          rw [backslashes_concat, if_neg backslash]

/-- `trim_ex_args` behind the white space in front. -/
def trimTail (s : Text) : Text :=
  if (trimEnd s).length < s.length ∧ backslashes (trimEnd s) % 2 = 1 then
    trimEnd s ++ (s.drop (trimEnd s).length).take 1
  else trimEnd s

theorem trimExArgs_eq (s : Text) : trimExArgs s = trimTail (trimStart s) := rfl

theorem trimTail_of_end (other : isWhitespace c = false) : trimTail (s ++ [c]) = s ++ [c] := by
  have whole : trimEnd (s ++ [c]) = s ++ [c] :=
    List.rdropWhile_concat_neg _ _ _ (Bool.eq_false_iff.1 other)
  rw [trimTail, whole, if_neg (not_and_of_not_left _ (Nat.lt_irrefl _))]

/-- White space behind an escaping backslash stays. -/
theorem trimTail_escaped (even : backslashes s % 2 = 0) (white : isWhitespace c = true) :
    trimTail (s ++ ['\\', c]) = s ++ ['\\', c] := by
  have parts : s ++ ['\\', c] = (s ++ ['\\']) ++ [c] := by
    rw [List.append_assoc]
    rfl
  have trimmed : trimEnd (s ++ ['\\', c]) = s ++ ['\\'] := by
    rw [parts, trimEnd_append (List.forall_mem_singleton.2 white), trimEnd,
      List.rdropWhile_concat_neg]
    decide
  have shorter : (s ++ ['\\']).length < (s ++ ['\\', c]).length := by
    simp
  have odd : backslashes (s ++ ['\\']) % 2 = 1 := by
    rw [backslashes_concat, if_pos rfl]
    omega
  rw [trimTail, trimmed, if_pos ⟨shorter, odd⟩]
  conv_lhs => rw [parts]
  rw [List.drop_left, List.append_assoc]
  rfl

/-- White space behind an even number of backslashes is lost. -/
theorem trimTail_white (even : backslashes s % 2 = 0) (white : isWhitespace c = true) :
    trimTail (s ++ [c]) = trimTail s := by
  have trimmed : trimEnd (s ++ [c]) = trimEnd s := trimEnd_append (List.forall_mem_singleton.2 white)
  obtain ⟨trail, parts, -⟩ := trimEnd_parts s
  rw [trimTail, trimTail, trimmed]
  cases trail with
  | nil =>
      rw [List.append_nil] at parts
      rw [← parts, even, if_neg (by simp), if_neg (by simp)]
  | cons w trail =>
      have shorter : (trimEnd s).length < s.length := by
        conv_rhs => rw [parts]
        simp
      have shorter' : (trimEnd s).length < (s ++ [c]).length :=
        Nat.lt_of_lt_of_le shorter (by simp)
      have same (front : Text) (parts : s = front ++ w :: trail) :
          ((s ++ [c]).drop front.length).take 1 = (s.drop front.length).take 1 := by
        rw [parts, List.append_assoc, List.drop_left, List.drop_left]
        rfl
      simp only [shorter, shorter', true_and, same _ parts]

/-- **The end of an escaped text loses the loose white space.** -/
theorem trimTail_escape {pre : Text} (even : backslashes pre % 2 = 0) (name : Text) :
    trimTail (pre ++ escape name) =
      if name.rdropWhile isLoose = [] then trimTail pre
      else pre ++ escape (name.rdropWhile isLoose) := by
  induction name using List.reverseRecOn with
  | nil => rw [escape_nil, List.append_nil, List.rdropWhile_nil, if_pos rfl]
  | append_singleton name c ih =>
      have even' := backslashes_escape even name
      by_cases loose : isLoose c = true
      · rw [List.rdropWhile_concat_pos _ _ _ loose, ← ih, escape_concat, ← List.append_assoc]
        simp only [isLoose, Bool.and_eq_true, Bool.not_eq_true'] at loose
        rw [escapeChar, loose.2, if_neg Bool.false_ne_true]
        exact trimTail_white even' loose.1
      · rw [List.rdropWhile_concat_neg _ _ _ loose, if_neg (by simp), escape_concat,
          ← List.append_assoc, escapeChar]
        split
        · next escaped =>
            by_cases white : isWhitespace c = true
            · exact trimTail_escaped even' white
            · have parts : ['\\', c] = ['\\'] ++ [c] := rfl
              rw [parts, ← List.append_assoc]
              exact trimTail_of_end (Bool.eq_false_iff.2 white)
        · next plain =>
            rw [isLoose, Bool.eq_false_iff.2 plain, Bool.not_false, Bool.and_true] at loose
            exact trimTail_of_end (Bool.eq_false_iff.2 loose)

/-- Trimming again the start of what is trimmed at the end trims no more of the end. -/
theorem bareName_end (name : Text) : (bareName name).rdropWhile isLoose = bareName name := by
  obtain ⟨front, parts⟩ : ∃ front, name.rdropWhile isLoose = front ++ bareName name :=
    ⟨_, List.takeWhile_append_dropWhile.symm⟩
  have again := List.rdropWhile_idempotent isLoose name
  rw [parts] at again
  generalize bareName name = bare at again ⊢
  induction bare using List.reverseRecOn with
  | nil => rfl
  | append_singleton bare c _ =>
      rw [← List.append_assoc] at again
      by_cases loose : isLoose c = true
      · rw [List.rdropWhile_concat_pos _ _ _ loose] at again
        have shorter := (List.rdropWhile_prefix isLoose (front ++ bare)).length_le
        rw [again, List.length_append] at shorter
        exact absurd shorter (Nat.not_succ_le_self _)
      · exact List.rdropWhile_concat_neg _ _ _ loose

theorem length_bareName (name : Text) : (bareName name).length ≤ name.length :=
  Nat.le_trans (List.dropWhile_sublist _).length_le (List.rdropWhile_prefix isLoose name).length_le

theorem dropWhile_eq_self {text : Text} : text.dropWhile p = text ↔ Stops p text := by
  cases text with
  | nil => exact ⟨fun _ => .nil p, fun _ => rfl⟩
  | cons c text =>
      constructor
      · intro same
        refine .cons ?_ text
        by_contra holds
        rw [List.dropWhile_cons_of_pos (by simpa using holds)] at same
        have shorter := (List.dropWhile_sublist p (l := text)).length_le
        rw [same, List.length_cons] at shorter
        exact absurd shorter (Nat.not_succ_le_self _)
      · exact fun stops => List.dropWhile_cons_of_neg (Bool.eq_false_iff.1 (stops c rfl))

theorem rdropWhile_eq_self {text : Text} : text.rdropWhile p = text ↔ Stops p text.reverse := by
  rw [← dropWhile_eq_self, List.rdropWhile, List.reverse_eq_iff]

/-- A name is left whole where no loose white space stands at its ends. -/
theorem bareName_eq_self :
    bareName name = name ↔ Stops isLoose name ∧ Stops isLoose name.reverse := by
  rw [← dropWhile_eq_self, ← rdropWhile_eq_self]
  constructor
  · intro whole
    have first := (List.dropWhile_sublist isLoose (l := name.rdropWhile isLoose)).length_le
    have front := List.rdropWhile_prefix isLoose name
    rw [bareName] at whole
    rw [whole] at first
    have same : name.rdropWhile isLoose = name := front.eq_of_length_le first
    rw [same] at whole
    exact ⟨whole, same⟩
  · rintro ⟨start, finish⟩
    rw [bareName, finish, start]

/-! ### The command line -/

/-- What the passes over the line ask of the command's name. -/
structure FileCommand (typed : Text) : Prop where
  letters : ∀ c ∈ typed, c.isAlpha = true
  some_name : typed ≠ []
  takes : exTakesBar typed = false
  sections : exPatternSections typed = 0
  normal : ∀ rest, parseNormalPrefix (typed ++ rest) = none

theorem fileCommand_edit : FileCommand "edit".toList :=
  ⟨List.all_eq_true.1 (by decide), by decide, by decide, by decide,
    fun _ => rfl⟩

theorem fileCommand_write : FileCommand "write".toList :=
  ⟨List.all_eq_true.1 (by decide), by decide, by decide, by decide,
    fun _ => rfl⟩

/-- The line that names a file. -/
def fileLine (typed name : Text) : Text := typed ++ ' ' :: escapeFileArg name

section
variable {typed : Text}

theorem FileCommand.stops (cmd : FileCommand typed) {p : Char → Bool}
    (other : ∀ c : Char, c.isAlpha = true → p c = false) (rest : Text) : Stops p (typed ++ rest) := by
  obtain ⟨c, letters, rfl⟩ := List.exists_cons_of_ne_nil cmd.some_name
  exact .cons (other c (cmd.letters c List.mem_cons_self)) _

theorem clean_guardOf (name : Text) : Clean (guardOf name) := by
  rw [guardOf]
  split
  · rw [Clean, List.forall_mem_cons, List.forall_mem_singleton]
    exact ⟨⟨by decide, by decide⟩, by decide, by decide⟩
  · exact List.forall_mem_nil _

/-- **The line is one command.** -/
theorem splitExBar_fileLine (cmd : FileCommand typed) (name : Text) :
    splitExBar (fileLine typed name) = some none := by
  have whole : addresses .between ([] ++ fileLine typed name) = some [] :=
    addresses_stops (cmd.stops (fun c letter => not_scansOn_of_isAlpha letter) _)
  have stops : Stops Char.isAlpha (' ' :: escapeFileArg name) := .cons rfl _
  obtain ⟨taken, dropped⟩ := takeWhile_letters cmd.letters stops
  have head : ¬ ((fileLine typed name).head? = some '!' ∨ (fileLine typed name).head? = some '=') := by
    have none_plain (d : Char) (plain : d.isAlpha = false) :
        (fileLine typed name).head? ≠ some d := by
      intro here
      have letter := cmd.stops (p := fun c => !c.isAlpha) (fun c letter => by simp [letter])
        (' ' :: escapeFileArg name) d here
      simp [plain] at letter
    exact not_or.2 ⟨none_plain '!' rfl, none_plain '=' rfl⟩
  have none_found : scanBar 0 false 0 (fileLine typed name) = none := by
    have clean : Clean (typed ++ ' ' :: guardOf name) :=
      (clean_of_letters cmd.letters).append (List.forall_mem_cons.2
        ⟨⟨by decide, by decide⟩, clean_guardOf name⟩)
    obtain ⟨left, few, scanned⟩ := scanBar_append 0 clean 0 (escape name ++ [])
    rw [Nat.le_zero.1 few, scanBar_escape] at scanned
    rw [List.append_nil, List.append_assoc, List.cons_append] at scanned
    exact scanned
  have cutHere := cutAtBar_eq 0 (by rintro ⟨high, -⟩; cases high) 0 [] (fileLine typed name)
  rw [none_found, sectionBytes, Nat.add_zero] at cutHere
  have split := (splitExBar_eq whole).2
  rw [List.nil_append] at split cutHere
  rw [split, if_neg head, fileLine, taken, dropped, cmd.takes, if_neg Bool.false_ne_true, scanStart,
    cmd.sections]
  exact cutHere

theorem guardOf_eq_nil {name : Text} (loose : ∀ c, name.head? = some c → isLoose c = true) :
    guardOf name = [] := by
  cases name with
  | nil => rfl
  | cons c name =>
      have first := loose c rfl
      rw [guardOf, if_neg]
      intro guard
      simp only [guarded, List.head?_cons, Option.any_some, List.contains_iff_mem, List.mem_cons,
        List.not_mem_nil, or_false] at guard
      rcases guard with rfl | rfl | rfl | rfl
      all_goals cases first

/-- The name's end, cut short, keeps its start. -/
theorem rdropWhile_guarded {name : Text} (guard : guardOf name ≠ []) :
    name.rdropWhile isLoose ≠ [] ∧ (name.rdropWhile isLoose).dropWhile isLoose =
      name.rdropWhile isLoose := by
  cases name with
  | nil => exact absurd rfl guard
  | cons c name =>
      have other : isLoose c = false := by
        rw [Bool.eq_false_iff]
        intro loose
        refine guard (guardOf_eq_nil ?_)
        rintro _ ⟨⟩
        exact loose
      have front := List.rdropWhile_prefix isLoose (c :: name)
      have some_left : (c :: name).rdropWhile isLoose ≠ [] := by
        intro empty
        have all := List.rdropWhile_eq_nil_iff.1 empty c List.mem_cons_self
        rw [other] at all
        cases all
      obtain ⟨c', rest, whole⟩ := List.exists_cons_of_ne_nil some_left
      rw [whole] at front ⊢
      obtain ⟨rfl, -⟩ := List.cons_prefix_cons.1 front
      exact ⟨List.cons_ne_nil _ _, List.dropWhile_cons_of_neg (Bool.eq_false_iff.1 other)⟩

/-- What is left of the line's argument when the line is trimmed. -/
def argTail (name : Text) : Text :=
  if name.rdropWhile isLoose = [] then []
  else ' ' :: (guardOf name ++ escape (name.rdropWhile isLoose))

theorem trimExArgs_fileLine (cmd : FileCommand typed) (name : Text) :
    trimExArgs (fileLine typed name) = typed ++ argTail name := by
  have start : trimStart (fileLine typed name) = fileLine typed name :=
    trimStart_stops (cmd.stops (fun c letter => not_isWhitespace_of_isAlpha letter) _)
  obtain ⟨front, c, whole⟩ := (List.eq_nil_or_concat typed).resolve_left cmd.some_name
  have letter : c.isAlpha = true := cmd.letters c (by simp [whole])
  have plain : backslashes typed % 2 = 0 := by
    have other : c ≠ '\\' := by
      rintro rfl
      cases letter
    rw [whole, List.concat_eq_append, backslashes_concat, if_neg other]
  have even : backslashes (typed ++ ' ' :: guardOf name) % 2 = 0 := by
    rw [guardOf]
    split
    · have parts : typed ++ [' ', '.', '/'] = (typed ++ [' ', '.']) ++ ['/'] := by simp
      rw [parts, backslashes_concat, if_neg (by decide)]
    · rw [backslashes_concat, if_neg (by decide)]
  have parts : fileLine typed name = (typed ++ ' ' :: guardOf name) ++ escape name := by
    rw [fileLine, escapeFileArg_eq, List.append_assoc, List.cons_append]
  rw [trimExArgs_eq, start, parts, trimTail_escape even, argTail]
  split
  · next none_left =>
      have guard : guardOf name = [] := by
        by_contra guard
        exact (rdropWhile_guarded guard).1 none_left
      rw [guard, trimTail_white plain rfl, List.append_nil, whole, List.concat_eq_append]
      exact trimTail_of_end (not_isWhitespace_of_isAlpha letter)
  · rw [List.append_assoc, List.cons_append]

theorem backslashes_guardOf (name : Text) : backslashes (guardOf name) % 2 = 0 := by
  rw [guardOf]
  split
  · rfl
  · rfl

/-- **What the two trims leave of an escaped name.** -/
theorem trimExArgs_argTail (name : Text) :
    trimExArgs (argTail name) = guardOf name ++ escape (bareName name) := by
  have trimmed (rest : Text) : trimStart (' ' :: rest) = trimStart rest :=
    List.dropWhile_cons_of_pos rfl
  rw [argTail]
  split
  · next none_left =>
      have guard : guardOf name = [] := by
        by_contra guard
        exact (rdropWhile_guarded guard).1 none_left
      rw [guard, bareName, none_left]
      rfl
  · next some_left =>
      rw [trimExArgs_eq, trimmed]
      by_cases guard : guardOf name = []
      · rw [guard, List.nil_append, trimStart_escape, List.nil_append, ← bareName]
        have tail := trimTail_escape (rfl : backslashes [] % 2 = 0) (bareName name)
        rw [List.nil_append, bareName_end] at tail
        rw [tail]
        split
        · next empty =>
            rw [empty]
            rfl
        · rfl
      · have same := (rdropWhile_guarded guard).2
        have start : Stops isWhitespace (guardOf name ++ escape (name.rdropWhile isLoose)) := by
          rw [guardOf] at guard ⊢
          split at guard
          · next guards =>
              rw [if_pos guards]
              exact .cons rfl _
          · exact absurd rfl guard
        have again := List.rdropWhile_idempotent isLoose name
        rw [trimStart_stops start, trimTail_escape (backslashes_guardOf name), again,
          if_neg some_left, bareName, same]

/-- **The command that is run**: the name's arm, on what is left of the escaped name. -/
theorem executeExOne_fileLine {ed : Editor} (cmd : FileCommand typed)
    (enabled : ed.refuses typed = false) (name : Text) :
    executeExOne ed (fileLine typed name) =
      if canonicalOrSelf typed = "write".toList then
        withFileArg ed (guardOf name ++ escape (bareName name)) fun a => .exWrite a false none
      else if canonicalOrSelf typed = "wq".toList then
        withFileArg ed (guardOf name ++ escape (bareName name)) fun a => .exWrite a false (some false)
      else if canonicalOrSelf typed = "edit".toList then
        withFileArg ed (guardOf name ++ escape (bareName name)) fun a => exEdit ed a false
      else if isSubstituteName (canonicalOrSelf typed) then
        .exSubstitute ⟨ed.cursorLine, ed.cursorLine, false⟩ (guardOf name ++ escape (bareName name))
      else .other (canonicalOrSelf typed) false (guardOf name ++ escape (bareName name))
        ⟨ed.cursorLine, ed.cursorLine, false⟩ := by
  have white (rest : Text) : Stops isWhitespace (typed ++ rest) :=
    cmd.stops (fun c letter => not_isWhitespace_of_isAlpha letter) rest
  have read (rest : Text) : parseExRange ed (typed ++ rest) =
      .ok (⟨ed.cursorLine, ed.cursorLine, false⟩, typed ++ rest) :=
    parseExRange_stops (cmd.stops (fun c letter => by
      rw [Bool.eq_false_iff]
      intro range
      have scans := isRangeChar_scansOn range
      rw [not_scansOn_of_isAlpha letter] at scans
      cases scans) rest)
  have some_cmd (rest : Text) : typed ++ rest ≠ [] :=
    fun empty => cmd.some_name (List.append_eq_nil_iff.1 empty).1
  have stops : Stops Char.isAlpha (argTail name) := by
    rw [argTail]
    split
    · exact .nil _
    · exact .cons rfl _
  have split : splitEx (typed ++ argTail name) =
      (typed, false, guardOf name ++ escape (bareName name)) := by
    obtain ⟨taken, dropped⟩ := takeWhile_letters cmd.letters stops
    have other (args : Text) : argTail name ≠ '!' :: args := by
      intro same
      rw [argTail] at same
      split at same
      · cases same
      · cases (List.cons_eq_cons.1 same).1
    rw [splitEx, taken, dropped, ← trimExArgs_argTail]
    split
    · next args same => exact absurd same (other args)
    · rfl
  have head (c : Char) (plain : c.isAlpha = false) : (typed ++ argTail name).head? ≠ some c := by
    intro here
    have letter := cmd.stops (p := fun c => !c.isAlpha) (fun c letter => by simp [letter]) _ c here
    simp [plain] at letter
  rw [executeExOne, trimExArgs_fileLine cmd, if_neg (some_cmd _)]
  simp only [fileLine, trimStart_stops (white _), read, cmd.normal, Option.map_none, ite_self,
    Option.getD_none, some_cmd, if_false]
  exact dispatch_named (head '&' rfl) (head '=' rfl) (cmd.normal _) split enabled

end

/-! ### The path -/

theorem expandChars_guarded (ed : Editor) (name bare : Text) :
    expandChars ed (guardOf name ++ escape bare) = .ok (guardOf name ++ bare) := by
  rw [guardOf]
  split
  · rw [List.cons_append, List.singleton_append, expandChars,
      if_neg (not_and_of_not_left _ (by decide)), if_pos (by decide), expandChars,
      if_neg (not_and_of_not_left _ (by decide)), if_pos (by decide), expandChars_escape]
    rfl
  · exact expandChars_escape ed bare

/-- The expansion of an escaped name that no home directory is read off. -/
theorem expandFileArg_guarded {bare : Text}
    (plain : ed.home = none ∨ (guardOf name ++ escape bare).head? ≠ some '~') :
    expandFileArg ed (guardOf name ++ escape bare) = .ok (guardOf name ++ bare) := by
  have same : expandLeadingTilde ed.home (guardOf name ++ escape bare) =
      guardOf name ++ escape bare := by
    unfold expandLeadingTilde
    split
    · next rest whole =>
        rcases plain with home | other
        · rw [home, whole]
          split
          · rfl
          · rfl
        · rw [whole] at other
          exact absurd rfl other
    · rfl
  rw [expandFileArg, same, expandChars_guarded]

theorem canonical_fileCommands : canonicalOrSelf "edit".toList = "edit".toList ∧
    canonicalOrSelf "write".toList = "write".toList := by decide

/-- What `:edit` is run on. -/
theorem executeExOne_edit (enabled : ed.refuses "edit".toList = false)
    (plain : ed.home = none ∨ (guardOf name ++ escape (bareName name)).head? ≠ some '~') :
    executeExOne ed (fileLine "edit".toList name) = exEdit ed (guardOf name ++ bareName name) false := by
  rw [executeExOne_fileLine fileCommand_edit enabled, canonical_fileCommands.1, withFileArg, withFileArg,
    withFileArg, expandFileArg_guarded plain]
  exact (if_neg (by decide)).trans
    ((if_neg (by decide)).trans (if_pos rfl))

/-- What `:write` is run on. -/
theorem executeExOne_write (enabled : ed.refuses "write".toList = false) (name : Text)
    (plain : ed.home = none ∨ (guardOf name ++ escape (bareName name)).head? ≠ some '~') :
    executeExOne ed (fileLine "write".toList name) =
      .exWrite (guardOf name ++ bareName name) false none := by
  rw [executeExOne_fileLine fileCommand_write enabled, canonical_fileCommands.2, if_pos rfl, withFileArg,
    expandFileArg_guarded plain]

/-- A guarded name starts with nothing that is read specially. -/
theorem guarded_head (name : Text) :
    (guardOf name ++ name).head? ≠ some '~' ∧ (guardOf name ++ name).head? ≠ some '+' := by
  rw [guardOf]
  split
  · exact ⟨by simp, by simp⟩
  · next plain =>
      rw [List.nil_append]
      constructor
      · intro here
        rw [guarded, here] at plain
        exact plain rfl
      · intro here
        rw [guarded, here] at plain
        exact plain rfl

theorem escape_head : (guardOf name ++ escape name).head? ≠ some '~' := by
  have head := (guarded_head name).1
  rw [guardOf] at head ⊢
  split
  · simp
  · next plain =>
      rw [if_neg plain, List.nil_append] at head
      cases name with
      | nil => exact nofun
      | cons c name =>
          rw [List.nil_append, escape_cons, escapeChar]
          split
          · simp
          · simpa using head

theorem trim_of_stops (start : Stops isWhitespace s) (finish : Stops isWhitespace s.reverse) :
    trim s = s := by
  rw [trim, trimStart_stops start, trimEnd, rdropWhile_eq_self.2 finish]

theorem trim_stops (s : Text) :
    Stops isWhitespace (trim s) ∧ Stops isWhitespace (trim s).reverse := by
  obtain ⟨-, -, -, start⟩ := trimStart_parts s
  constructor
  · by_cases empty : trim s = []
    · rw [empty]
      exact .nil _
    · obtain ⟨trail, parts, -⟩ := trimEnd_parts (trimStart s)
      rw [parts] at start
      exact start.of_append empty
  · rw [← rdropWhile_eq_self]
    exact List.rdropWhile_idempotent _ _

/-- A name without white space at its ends is opened as it is. -/
theorem exEdit_guarded (some_name : name ≠ []) (start : Stops isWhitespace name)
    (finish : Stops isWhitespace name.reverse) :
    exEdit ed (guardOf name ++ name) false = .exEditFile (guardOf name ++ name) false none := by
  have start' : Stops isWhitespace (guardOf name ++ name) := by
    rw [guardOf]
    split
    · exact .cons rfl _
    · exact start
  have finish' : Stops isWhitespace (guardOf name ++ name).reverse := by
    obtain ⟨c, more, whole⟩ := List.exists_cons_of_ne_nil (List.reverse_ne_nil_iff.2 some_name)
    rw [whole] at finish
    rw [List.reverse_append, whole]
    exact .cons (finish c rfl) _
  have head := (guarded_head name).2
  have some_path : guardOf name ++ name ≠ [] :=
    fun empty => some_name (List.append_eq_nil_iff.1 empty).2
  have read : parseEditPlusplus ed (guardOf name ++ name) = .ok (none, guardOf name ++ name) := by
    rw [parseEditPlusplus, trimStart_stops start', readPlusplus]
    · rw [trim_of_stops start' finish']
    · intro after whole
      rw [whole] at head
      exact head rfl
  rw [exEdit, read]
  simp only [some_path, if_false]

/-- Without names to fall back on, the path that is opened is the argument, trimmed. -/
theorem exEdit_empty {arg path : Text}
    (opened : exEdit .empty arg false = .exEditFile path false none) : path = trim arg := by
  rw [exEdit] at opened
  split at opened
  · cases opened
  · next forced file read =>
      rw [parseEditPlusplus] at read
      have trimmed : file = trim arg := by
        unfold readPlusplus at read
        split at read
        · simp only at read
          split at read
          · cases read
          · split at read
            · cases read
            · cases read
        · cases read
          rw [trim, trimStart_idem, trim]
      split at opened
      · cases opened
      · cases opened
        exact trimmed

/-! ### Which names survive -/

/-- The escaped name is one command to open the file, and one to write it. -/
def OpensNamed (name : Text) : Prop :=
  ∀ (State : Type) (host : Host State) (s : State), (host.editor s).refuses "edit".toList = false →
    (host.editor s).refuses "write".toList = false →
    ∃ path, (path = name ∨ path = ['.', '/'] ++ name) ∧
      executeEx host s ("edit ".toList ++ escapeFileArg name) =
        some (host.run s (.exEditFile path false none)) ∧
      executeEx host s ("write ".toList ++ escapeFileArg name) =
        some (host.run s (.exWrite path false none))

/-- The escaped name is one command to write the file. -/
def WritesNamed (name : Text) : Prop :=
  ∀ (State : Type) (host : Host State) (s : State), (host.editor s).refuses "write".toList = false →
    ∃ path, (path = name ∨ path = ['.', '/'] ++ name) ∧
      executeEx host s ("write ".toList ++ escapeFileArg name) =
        some (host.run s (.exWrite path false none))

/-- A host that keeps a log of the commands it runs. -/
def logHost : Host (List Command) where
  editor := fun _ => .empty
  run := fun log command => log ++ [command]
  messageError := fun _ => false
  clearError := id
  deferred := fun _ => 0
  deferChain := fun log _ => log

section
variable {State : Type}

theorem executeEx_fileLine {typed : Text} (cmd : FileCommand typed) (host : Host State) (s : State)
    (name : Text) : executeEx host s (fileLine typed name) =
      some (host.run s (executeExOne (host.editor s) (fileLine typed name))) := by
  rw [executeEx, splitExBar_fileLine cmd]

theorem edit_line (name : Text) :
    "edit ".toList ++ escapeFileArg name = fileLine "edit".toList name := rfl

theorem write_line (name : Text) :
    "write ".toList ++ escapeFileArg name = fileLine "write".toList name := rfl

theorem isLoose_white {c : Char} (loose : isLoose c = true) : isWhitespace c = true := by
  rw [isLoose, Bool.and_eq_true] at loose
  exact loose.1

theorem guardOf_path (name : Text) : guardOf name ++ name = name ∨
    guardOf name ++ name = ['.', '/'] ++ name := by
  rw [guardOf]
  split
  · exact Or.inr rfl
  · exact Or.inl rfl

theorem write_named {name : Text} (bare : bareName name = name) (host : Host State) (s : State)
    (enabled : (host.editor s).refuses "write".toList = false) :
    executeEx host s ("write ".toList ++ escapeFileArg name) =
      some (host.run s (.exWrite (guardOf name ++ name) false none)) := by
  have written := executeExOne_write enabled name (Or.inr (bare.symm ▸ escape_head))
  rw [write_line, executeEx_fileLine fileCommand_write, written, bare]

end

theorem writesNamed_iff (name : Text) :
    WritesNamed name ↔ Stops isLoose name ∧ Stops isLoose name.reverse := by
  rw [← bareName_eq_self]
  constructor
  · intro writes
    obtain ⟨path, same, run⟩ := writes _ logHost [] rfl
    rw [write_line, executeEx_fileLine fileCommand_write,
      executeExOne_write rfl name (Or.inl rfl)] at run
    cases run
    have short := length_bareName name
    rcases same with same | same
    · rw [guardOf] at same
      split at same
      · next guards =>
          rw [← same] at guards
          cases guards
      · exact same
    · rw [guardOf] at same
      split at same
      · exact List.append_cancel_left same
      · have lengths := congrArg List.length same
        simp only [List.nil_append, List.length_append, List.length_cons, List.length_nil] at lengths
        omega
  · intro bare State host s enabled
    exact ⟨_, guardOf_path name, write_named bare host s enabled⟩

theorem opensNamed_iff (some_name : name ≠ []) :
    OpensNamed name ↔ Stops isWhitespace name ∧ Stops isWhitespace name.reverse := by
  constructor
  · intro opens
    obtain ⟨path, same, run, -⟩ := opens _ logHost [] rfl rfl
    rw [edit_line, executeEx_fileLine fileCommand_edit, executeExOne_edit rfl (Or.inl rfl)] at run
    have logged : exEdit .empty (guardOf name ++ bareName name) false =
        .exEditFile path false none := by
      have run' := Option.some.inj run
      exact List.singleton_inj.1 run'
    have trimmed := exEdit_empty logged
    obtain ⟨start, finish⟩ := trim_stops (guardOf name ++ bareName name)
    rw [← trimmed] at start finish
    constructor
    · rcases same with rfl | same
      · exact start
      · -- A name with white space in front has no guard, and comes out no longer.
        intro c here
        by_contra white
        rw [Bool.not_eq_false] at white
        by_cases guard : guardOf name = []
        · have short := length_bareName name
          have trims : (trim (bareName name)).length ≤ (bareName name).length :=
            Nat.le_trans (trimEnd_front _).length_le (List.dropWhile_sublist _).length_le
          rw [guard, List.nil_append] at trimmed
          rw [← trimmed, same] at trims
          simp only [List.length_append, List.length_cons, List.length_nil] at trims
          omega
        · obtain ⟨more, rfl⟩ := List.head?_eq_some_iff.1 here
          refine guard ?_
          rw [guardOf, if_neg]
          intro guards
          simp only [guarded, List.head?_cons, Option.any_some, List.contains_iff_mem, List.mem_cons,
            List.not_mem_nil, or_false] at guards
          rcases guards with rfl | rfl | rfl | rfl
          all_goals cases white
    · rcases same with rfl | rfl
      · exact finish
      · rw [List.reverse_append] at finish
        exact finish.of_append (List.reverse_ne_nil_iff.2 some_name)
  · rintro ⟨start, finish⟩ State host s edits writes
    have bare : bareName name = name := bareName_eq_self.2
      ⟨start.mono fun c loose => isLoose_white loose, finish.mono fun c loose => isLoose_white loose⟩
    refine ⟨_, guardOf_path name, ?_, write_named bare host s writes⟩
    rw [edit_line, executeEx_fileLine fileCommand_edit,
      executeExOne_edit edits (Or.inr (bare.symm ▸ escape_head)), bare,
      exEdit_guarded some_name start finish]

/-- **Which escaped names open and write the file they name**: those without white space at their ends,
and for writing alone those without white space there that is not escaped. -/
theorem escaped_name_iff (name : Text) (some_name : name ≠ []) :
    (OpensNamed name ↔ Stops isWhitespace name ∧ Stops isWhitespace name.reverse) ∧
    (WritesNamed name ↔ Stops isLoose name ∧ Stops isLoose name.reverse) := by
  constructor
  · exact opensNamed_iff some_name
  · exact writesNamed_iff name

theorem escaped_name_plus : OpensNamed "+a|b".toList := by
  have ends : Stops isWhitespace "+a|b".toList ∧ Stops isWhitespace "+a|b".toList.reverse :=
    ⟨.cons rfl _, .cons rfl _⟩
  exact (escaped_name_iff "+a|b".toList (by decide)).1.2 ends

/-- `:edit` loses a space that `:write` keeps, and both lose a carriage return. -/
theorem escaped_name_fails :
    ¬ OpensNamed " a".toList ∧ ¬ WritesNamed "a\r".toList ∧
    executeEx logHost [] ("edit ".toList ++ escapeFileArg " a".toList) =
      some [.exEditFile "a".toList false none] ∧
    executeEx logHost [] ("write ".toList ++ escapeFileArg " a".toList) =
      some [.exWrite " a".toList false none] ∧
    executeEx logHost [] ("write ".toList ++ escapeFileArg "a\r".toList) =
      some [.exWrite "a".toList false none] := by
  refine ⟨?_, ?_, by decide +kernel, by decide +kernel, by decide +kernel⟩
  · rw [opensNamed_iff (by decide)]
    rintro ⟨start, -⟩
    cases start ' ' rfl
  · rw [writesNamed_iff]
    rintro ⟨-, finish⟩
    cases finish '\r' rfl

end Bemtvi.Core.ExLine
