/-
Module: Bemtvi.Core.ExCuts
Purpose: The lines the dispatch takes for substitutes, by their heads, and which heads keep the
  splitter's cut out of every pattern and replacement; with it, where the splitter agrees with the
  dispatch.
Trusted boundary: none
Main exports: SubstituteHead, dispatch_line, SplitsBy, CutOutside, cutOutside_iff, bar_split_iff
-/
import Bemtvi.Core.ExSubstitutes

namespace Bemtvi.Core.ExLine

open Utf8

/-! ### Trimming -/

theorem trimEnd_append {s trail : Text} (white : ∀ c ∈ trail, isWhitespace c = true) :
    trimEnd (s ++ trail) = trimEnd s := by
  induction trail using List.reverseRecOn with
  | nil => rw [List.append_nil]
  | append_singleton trail c ih =>
      rw [List.forall_mem_append, List.forall_mem_singleton] at white
      rw [← List.append_assoc, trimEnd, List.rdropWhile_concat_pos _ _ _ white.2]
      exact ih white.1

theorem trimEnd_front (s : Text) : trimEnd s <+: s := by
  obtain ⟨trail, parts, -⟩ := trimEnd_parts s
  exact ⟨trail, parts.symm⟩

theorem trimEnd_cons {c : Char} (other : isWhitespace c = false) (s : Text) :
    trimEnd (c :: s) = c :: trimEnd s := by
  induction s using List.reverseRecOn with
  | nil => exact List.rdropWhile_concat_neg _ [] c (Bool.eq_false_iff.1 other)
  | append_singleton s c' ih =>
      rw [← List.cons_append]
      by_cases white : isWhitespace c' = true
      · have trail : ∀ c ∈ [c'], isWhitespace c = true := List.forall_mem_singleton.2 white
        rw [trimEnd_append trail, trimEnd_append trail, ih]
      · rw [trimEnd, trimEnd, List.rdropWhile_concat_neg _ _ _ white,
          List.rdropWhile_concat_neg _ _ _ white, List.cons_append]

theorem trimStart_stops {s : Text} (stops : Stops isWhitespace s) : trimStart s = s := by
  have none_white : ∀ c ∈ ([] : Text), isWhitespace c = true := List.forall_mem_nil _
  exact trimStart_append none_white stops

theorem trimStart_idem (s : Text) : trimStart (trimStart s) = trimStart s := by
  obtain ⟨-, -, -, stops⟩ := trimStart_parts s
  exact trimStart_stops stops

/-- What the escape-aware trim leaves is trimmed to the same text. -/
theorem trim_trimExArgs (s : Text) : trim (trimExArgs s) = trim s := by
  obtain ⟨trail, parts, white⟩ := trimExArgs_parts s
  obtain ⟨-, -, -, stops⟩ := trimStart_parts s
  have start : trimStart (trimExArgs s) = trimExArgs s := by
    cases args : trimExArgs s with
    | nil => rfl
    | cons c more =>
        rw [parts, args] at stops
        exact trimStart_stops (stops.of_append (List.cons_ne_nil c more))
  rw [trim, start, trim, parts, trimEnd_append white]

/-! ### Heads -/

/-- The head of a substitute's line, up to the delimiter that opens its pattern. -/
structure SubstituteHead where
  lead : Text
  range : Text
  gap : Text
  name : Text
  bang : Bool
  space : Text
  delim : Char
deriving Repr, DecidableEq

namespace SubstituteHead
variable (h : SubstituteHead)

/-- What stands between the name and the delimiter. -/
def between : Text := (if h.bang then ['!'] else []) ++ h.space

/-- What stands before the delimiter. -/
def front : Text := h.lead ++ (h.range ++ (h.gap ++ (h.name ++ h.between)))

/-- A line with the head. -/
def line (body : Text) : Text := h.front ++ h.delim :: body

/-- What the dispatch takes for a substitute's head. -/
structure Reads (ed : Editor) : Prop where
  lead : ∀ c ∈ h.lead, isWhitespace c = true
  range : ∃ r, parseExRange ed h.range = .ok (r, [])
  gap : ∀ c ∈ h.gap, isWhitespace c = true
  name : isSubstituteName h.name = true
  space : ∀ c ∈ h.space, isWhitespace c = true
  enabled : ed.refuses h.name = false
  plain : ed.alphanumeric h.delim = false
  backslash : h.delim ≠ '\\'
  quote : h.delim ≠ '"'
  white : isWhitespace h.delim = false
  bare : h.between = [] → h.delim ≠ '!'

/-- A head with blanks for white space, no `!` and an ASCII delimiter. -/
structure Plain : Prop where
  lead : ∀ c ∈ h.lead, isBlank c = true
  gap : ∀ c ∈ h.gap, isBlank c = true
  bang : h.bang = false
  space : ∀ c ∈ h.space, isBlank c = true
  ascii : h.delim.toNat < 128

end SubstituteHead

section
variable {ed : Editor} {h : SubstituteHead}

theorem SubstituteHead.line_eq (h : SubstituteHead) (body : Text) :
    h.line body =
      h.lead ++ (h.range ++ (h.gap ++ (h.name ++ (h.between ++ h.delim :: body)))) := by
  simp only [line, front, List.append_assoc]

theorem SubstituteHead.Reads.delim_not_blank (reads : h.Reads ed) : isBlank h.delim = false := by
  rw [Bool.eq_false_iff]
  intro blank
  have white := isWhitespace_of_isBlank blank
  rw [reads.white] at white
  cases white

theorem SubstituteHead.Reads.not_letter (reads : h.Reads ed) : h.delim.isAlpha = false := by
  rw [Bool.eq_false_iff]
  intro letter
  have plain := reads.plain
  rw [ed.alphanumeric_ascii _ (isAlpha_lt letter), Char.isAlphanum, letter] at plain
  cases plain

variable {c : Char}

theorem isAlpha_of_isWhitespace (white : isWhitespace c = true) : c.isAlpha = false := by
  have codes : ∀ n < 128, isWhitespace (Char.ofNat n) = true → (Char.ofNat n).isAlpha = false := by
    decide +kernel
  rw [Bool.eq_false_iff]
  intro letter
  have here := codes c.toNat (isAlpha_lt letter)
  rw [Char.ofNat_toNat, letter] at here
  cases here white

/-- Where the name ends. -/
theorem SubstituteHead.Reads.stops (reads : h.Reads ed) (body : Text) :
    Stops Char.isAlpha (h.between ++ h.delim :: body) := by
  refine .append ?_ (.cons reads.not_letter body)
  rw [between, List.forall_mem_append]
  refine ⟨?_, fun c member => isAlpha_of_isWhitespace (reads.space c member)⟩
  split
  · exact List.forall_mem_singleton.2 rfl
  · exact nofun

theorem parseNormalPrefix_substitute {name : Text} (spelled : SubstituteName name) (rest : Text) :
    parseNormalPrefix (name ++ rest) = none := by
  obtain ⟨letters, rfl⟩ := List.head?_eq_some_iff.1 spelled.first
  rfl

/-- What `split_ex` reads of a command with the head's name. -/
theorem splitEx_substitute (reads : h.Reads ed) (body : Text) :
    splitEx (h.name ++ (h.between ++ h.delim :: body)) =
      (h.name, h.bang, trimExArgs (h.space ++ h.delim :: body)) := by
  obtain ⟨taken, dropped⟩ :=
    takeWhile_letters (substituteName reads.name).letters (reads.stops body)
  rw [splitEx, taken, dropped, SubstituteHead.between]
  cases bang : h.bang with
  | true => rfl
  | false =>
      -- Without a `!` of its own the head has none there.
      have other (args : Text) : h.space ++ h.delim :: body ≠ '!' :: args := by
        intro same
        cases space : h.space with
        | nil =>
            have bare := reads.bare
            rw [SubstituteHead.between, bang, space] at bare
            rw [space] at same
            exact bare rfl (List.cons_eq_cons.1 same).1
        | cons c more =>
            have white := reads.space
            rw [space] at same white
            rw [List.cons_append] at same
            have first := white c List.mem_cons_self
            rw [(List.cons_eq_cons.1 same).1] at first
            cases first
      simp only [Bool.false_eq_true, if_false, List.nil_append]

/-- The arm of a command with a name. -/
theorem dispatch_named {r : ExRange} {cmd typed args : Text} {bang : Bool} (amp : cmd.head? ≠ some '&')
    (equals : cmd.head? ≠ some '=') (normal : parseNormalPrefix cmd = none)
    (read : splitEx cmd = (typed, bang, args)) (enabled : ed.refuses typed = false) :
    dispatch ed r cmd =
      if canonicalOrSelf typed = "write".toList then withFileArg ed args fun a => .exWrite a bang none
      else if canonicalOrSelf typed = "wq".toList then
        withFileArg ed args fun a => .exWrite a bang (some bang)
      else if canonicalOrSelf typed = "edit".toList then withFileArg ed args fun a => exEdit ed a bang
      else if isSubstituteName (canonicalOrSelf typed) then .exSubstitute r args
      else .other (canonicalOrSelf typed) bang args r := by
  unfold dispatch
  split
  · exact absurd rfl amp
  · exact absurd rfl amp
  · exact absurd rfl equals
  · simp only [normal, read]
    rw [Editor.unlessDisabled, enabled, if_neg Bool.false_ne_true]

theorem dispatch_substitute (reads : h.Reads ed) (r : ExRange) (body : Text) :
    dispatch ed r (h.name ++ (h.between ++ h.delim :: body)) =
      .exSubstitute r (trimExArgs (h.space ++ h.delim :: body)) := by
  have spelled := substituteName reads.name
  have whole : isSubstituteName "substitute".toList = true := by decide
  have other : "substitute".toList ≠ "write".toList ∧ "substitute".toList ≠ "wq".toList ∧
      "substitute".toList ≠ "edit".toList := by decide
  have head (c : Char) (apart : 's' ≠ c) :
      (h.name ++ (h.between ++ h.delim :: body)).head? ≠ some c := by
    rw [List.head?_append, spelled.first]
    exact fun same => apart (Option.some.inj same)
  rw [dispatch_named (head '&' (by decide)) (head '=' (by decide))
    (parseNormalPrefix_substitute spelled _) (splitEx_substitute reads body) reads.enabled,
    spelled.canonical, if_neg other.1, if_neg other.2.1, if_neg other.2.2, if_pos whole]

theorem not_isWhitespace_of_isAlpha (letter : c.isAlpha = true) : isWhitespace c = false := by
  rw [Bool.eq_false_iff]
  intro white
  rw [isAlpha_of_isWhitespace white] at letter
  cases letter

theorem not_scansOn_of_isAlpha (letter : c.isAlpha = true) : scansOn c = false := by
  have codes : ∀ n < 128, (Char.ofNat n).isAlpha = true → scansOn (Char.ofNat n) = false := by
    decide +kernel
  have here := codes c.toNat (isAlpha_lt letter)
  rw [Char.ofNat_toNat] at here
  exact here letter

/-- A substitute's name stops whatever stops at no letter. -/
theorem SubstituteName.stops {p : Char → Bool} {name : Text} (spelled : SubstituteName name)
    (other : ∀ c : Char, c.isAlpha = true → p c = false) (rest : Text) : Stops p (name ++ rest) := by
  obtain ⟨letters, rfl⟩ := List.head?_eq_some_iff.1 spelled.first
  exact .cons (other 's' rfl) _

/-- **The dispatch reads a substitute off every line with such a head**, and its pattern and its
replacement off what follows the delimiter, without the white space at the end. -/
theorem dispatch_line (reads : h.Reads ed) (body : Text) :
    ∃ r args, executeExOne ed (h.line body) = .exSubstitute r args ∧
      ed.substituteBody args = some (h.delim, trimEnd body) := by
  have spelled := substituteName reads.name
  have some_name : h.name ++ (h.between ++ h.delim :: body) ≠ [] := by
    obtain ⟨letters, name⟩ := List.head?_eq_some_iff.1 spelled.first
    rw [name]
    exact List.cons_ne_nil _ _
  obtain ⟨r, name', trail, command⟩ := readsCommand_of_range reads.lead reads.gap reads.range some_name
    (spelled.stops (fun c letter => not_isWhitespace_of_isAlpha letter) _)
    (spelled.stops (fun c letter => by
      rw [Bool.eq_false_iff]
      intro range
      have scans := isRangeChar_scansOn range
      rw [not_scansOn_of_isAlpha letter] at scans
      cases scans) _)
  -- The trim leaves the delimiter.
  obtain ⟨body', rfl, white⟩ : ∃ body', name' = h.name ++ (h.between ++ h.delim :: body') ∧
      trimEnd body' = trimEnd body := by
    have parts : (h.name ++ h.between) ++ h.delim :: body = name' ++ trail := by
      rw [List.append_assoc]
      exact command.parts
    obtain ⟨rest, cmd, same, some_rest⟩ := exists_trimmed parts command.white
      (List.cons_ne_nil _ _) (.cons reads.white body)
    obtain ⟨c, body', rfl⟩ := List.exists_cons_of_ne_nil some_rest
    rw [List.cons_append] at same
    obtain ⟨rfl, rfl⟩ := List.cons_eq_cons.1 same
    refine ⟨body', ?_, (trimEnd_append command.white).symm⟩
    rw [cmd, List.append_assoc]
  have normal (body : Text) : parseNormalPrefix (h.name ++ (h.between ++ h.delim :: body)) = none :=
    parseNormalPrefix_substitute spelled _
  refine ⟨r, trimExArgs (h.space ++ h.delim :: body'), ?_, ?_⟩
  · obtain ⟨rest, untrimmed, behind⟩ := command.untrimmed
    obtain ⟨rest', trimmed, behind'⟩ := command.trimmed
    have some_cmd : trimExArgs (h.line body) ≠ [] := by
      intro empty
      rw [SubstituteHead.line_eq] at empty
      rw [empty] at trimmed
      cases trimmed
      exact command.some_name behind'.symm
    rw [executeExOne, if_neg some_cmd]
    rw [SubstituteHead.line_eq]
    simp only [untrimmed, trimmed, behind, behind', normal, command.some_name, Option.map_none,
      ite_self, Option.getD_none, if_false]
    exact dispatch_substitute reads r body'
  · rw [Editor.substituteBody, trim_trimExArgs, trim, trimStart_append reads.space (.cons reads.white _),
      trimEnd_cons reads.white]
    have accepted : ¬ (ed.alphanumeric h.delim = true ∨ h.delim = '\\' ∨ h.delim = '"') := by
      rintro (letter | backslash | quote)
      · rw [reads.plain] at letter
        cases letter
      · exact reads.backslash backslash
      · exact reads.quote quote
    simp only [accepted, if_false, white]

end

/-! ### The splitter's scan of a head -/

/-- Where the splitter starts its scan of the lines with a head: behind `pre`, with so many sections
to close. -/
structure SplitsBy (h : SubstituteHead) (pre mid : Text) (first : UInt8) (sections : Nat) : Prop where
  parts : pre ++ mid = h.front ++ [h.delim]
  split : ∀ body, splitExBar (h.line body) =
    some ((scanBar first false sections (mid ++ body)).map fun parts => (pre ++ parts.1, parts.2))

section
variable {ed : Editor} {h : SubstituteHead} {pre mid : Text} {first : UInt8} {sections : Nat}

theorem SplitsBy.line_eq (splits : SplitsBy h pre mid first sections) (body : Text) :
    h.line body = pre ++ (mid ++ body) := by
  rw [← List.append_assoc, splits.parts, SubstituteHead.line, List.append_assoc]
  rfl

variable {body part tail text : Text} {w : Char}

/-- The cut where the scan finds a bar in the body. -/
theorem SplitsBy.cut (splits : SplitsBy h pre mid first sections)
    (found : scanBar first false sections (mid ++ body) = some (mid ++ part, tail)) :
    splitExBar (h.line body) = some (some (h.front ++ h.delim :: part, tail)) := by
  have whole : pre ++ (mid ++ part) = h.front ++ h.delim :: part := by
    rw [← List.append_assoc, splits.parts, List.append_assoc]
    rfl
  rw [splits.split, found, Option.map_some]
  simp only [whole]

/-- A cut in the body is where the scan finds a bar. -/
theorem SplitsBy.of_cut (splits : SplitsBy h pre mid first sections)
    (cut : splitExBar (h.line body) = some (some (h.front ++ h.delim :: part, tail))) :
    scanBar first false sections (mid ++ body) = some (mid ++ part, tail) := by
  rw [splits.split, Option.some.injEq] at cut
  obtain ⟨⟨seg, tail'⟩, found, same⟩ := Option.map_eq_some_iff.1 cut
  have whole : h.front ++ h.delim :: part = pre ++ (mid ++ part) := by
    rw [← List.append_assoc, splits.parts, List.append_assoc]
    rfl
  rw [whole, Prod.mk.injEq] at same
  obtain rfl : seg = mid ++ part := List.append_cancel_left same.1
  obtain rfl : tail' = tail := same.2
  exact found

theorem clean_of_white (white : ∀ c ∈ text, isWhitespace c = true) : Clean text := by
  intro c member
  constructor
  · rintro rfl
    cases white _ member
  · rintro rfl
    cases white _ member

theorem clean_of_letters (letters : ∀ c ∈ text, c.isAlpha = true) : Clean text := by
  intro c member
  constructor
  · rintro rfl
    cases letters _ member
  · rintro rfl
    cases letters _ member

theorem clean_between (reads : h.Reads ed) : Clean h.between := by
  refine Clean.append ?_ (clean_of_white reads.space)
  split
  · exact List.forall_mem_singleton.2 ⟨by decide, by decide⟩
  · exact nofun

/-- The first character that is no blank. -/
theorem exists_nonblank (some_other : ¬ ∀ c ∈ text, isBlank c = true) :
    ∃ blanks w more, text = blanks ++ w :: more ∧ (∀ c ∈ blanks, isBlank c = true) ∧
      isBlank w = false := by
  induction text with
  | nil => exact absurd nofun some_other
  | cons c text ih =>
      rw [List.forall_mem_cons, not_and] at some_other
      by_cases blank : isBlank c = true
      · obtain ⟨blanks, w, more, rfl, all, other⟩ := ih (some_other blank)
        exact ⟨c :: blanks, w, more, rfl, List.forall_mem_cons.2 ⟨blank, all⟩, other⟩
      · exact ⟨[], c, text, rfl, nofun, Bool.eq_false_iff.2 blank⟩

/-- Where the addresses stop at a character that opens no name, the scan starts there. -/
theorem splitExBar_stopped (whole : addresses .between (pre ++ w :: text) = some pre)
    (white : isWhitespace w = true) : splitExBar (pre ++ w :: text) =
      some ((scanBar 0 false 0 (w :: text)).map fun parts => (pre ++ parts.1, parts.2)) := by
  have letter := Bool.eq_false_iff.1 (isAlpha_of_isWhitespace white)
  have head : ¬ ((w :: text).head? = some '!' ∨ (w :: text).head? = some '=') := by
    rintro (⟨⟨⟩⟩ | ⟨⟨⟩⟩)
    · cases white
    · cases white
  have none_takes : exTakesBar [] = false := by decide
  have none_sections : exPatternSections [] = 0 := by decide
  have here := cutAtBar_eq 0 (by rintro ⟨high, -⟩; cases high) 0 pre (w :: text)
  rw [sectionBytes, Nat.add_zero] at here
  rw [(splitExBar_eq whole).2, if_neg head, List.takeWhile_cons_of_neg letter, none_takes,
    if_neg Bool.false_ne_true, scanStart, none_sections]
  exact here

/-- The addresses of a line, over text passed and up to what stops them. -/
theorem addresses_passed {front : Text} (passed : Passed front) (stops : Stops scansOn text) :
    addresses .between (front ++ text) = some front := by
  rw [passed.passes, addresses_stops stops, Option.map_some, List.append_nil]

theorem SubstituteHead.Reads.passed (reads : h.Reads ed) : Passed h.range := by
  obtain ⟨r, read⟩ := reads.range
  obtain ⟨range, same, ranged⟩ := parseExRange_spec read
  rw [List.append_nil] at same
  exact same ▸ ranged.passed

/-- White space that is no blank stops the splitter. -/
theorem stops_white (white : isWhitespace w = true) (other : isBlank w = false) (text : Text) :
    Stops scansOn (w :: text) := by
  refine .cons ?_ text
  rw [Bool.eq_false_iff]
  intro scans
  rw [isBlank_of_scansOn scans white] at other
  cases other

/-- **The scan of a head with other white space about its range**: from there, for any bar. -/
theorem splits_stopped (reads : h.Reads ed)
    (other : ¬ ((∀ c ∈ h.lead, isBlank c = true) ∧ ∀ c ∈ h.gap, isBlank c = true)) :
    ∃ pre mid, SplitsBy h pre (mid ++ [h.delim]) 0 0 ∧ Clean mid := by
  have name := clean_of_letters (substituteName reads.name).letters
  have range := reads.passed
  have between := clean_between reads
  by_cases lead : ∀ c ∈ h.lead, isBlank c = true
  · obtain ⟨blanks, w, more, gap, all, blank⟩ := exists_nonblank fun gap => other ⟨lead, gap⟩
    have white := reads.gap
    rw [gap, List.forall_mem_append, List.forall_mem_cons] at white
    have passed := (Passed.blanks lead).append (range.append (.blanks all))
    refine ⟨h.lead ++ (h.range ++ blanks), w :: more ++ (h.name ++ h.between), ⟨?_, fun body => ?_⟩,
      (clean_of_white (List.forall_mem_cons.2 white.2)).append (name.append between)⟩
    · rw [SubstituteHead.front, gap]
      simp only [List.append_assoc, List.cons_append]
    · have stopped := splitExBar_stopped
        (addresses_passed passed (stops_white white.2.1 blank
          (more ++ (h.name ++ (h.between ++ h.delim :: body))))) white.2.1
      rw [SubstituteHead.line_eq, gap]
      simpa only [List.append_assoc, List.cons_append, List.nil_append] using stopped
  · obtain ⟨blanks, w, more, lead, all, blank⟩ := exists_nonblank lead
    have white := reads.lead
    rw [lead, List.forall_mem_append, List.forall_mem_cons] at white
    refine ⟨blanks, w :: more ++ (h.range ++ (h.gap ++ (h.name ++ h.between))), ⟨?_, fun body => ?_⟩,
      (clean_of_white (List.forall_mem_cons.2 white.2)).append (range.clean.append
        ((clean_of_white reads.gap).append (name.append between)))⟩
    · rw [SubstituteHead.front, lead]
      simp only [List.append_assoc, List.cons_append]
    · have stopped := splitExBar_stopped
        (addresses_passed (.blanks all) (stops_white white.2.1 blank
          (more ++ (h.range ++ (h.gap ++ (h.name ++ (h.between ++ h.delim :: body))))))) white.2.1
      rw [SubstituteHead.line_eq, lead]
      simpa only [List.append_assoc, List.cons_append, List.nil_append] using stopped

/-- **The scan of a head whose name the splitter finds**: the first character behind the name that is
no blank is the splitter's delimiter. -/
theorem splits_named (reads : h.Reads ed) (lead : ∀ c ∈ h.lead, isBlank c = true)
    (gap : ∀ c ∈ h.gap, isBlank c = true) {blanks more : Text} {d : Char}
    (parts : h.between ++ [h.delim] = blanks ++ d :: more) (all : ∀ c ∈ blanks, isBlank c = true)
    (other : isBlank d = false) :
    (opensNothing (leadByte d) = true → SplitsBy h
      (h.lead ++ (h.range ++ (h.gap ++ (h.name ++ blanks)))) (d :: more) 0 0) ∧
    (opensNothing (leadByte d) = false → SplitsBy h
      (h.lead ++ (h.range ++ (h.gap ++ (h.name ++ (blanks ++ [d]))))) more (leadByte d) 2) := by
  have spelled := substituteName reads.name
  have passed := (Passed.blanks lead).append (reads.passed.append (.blanks gap))
  have whole (body : Text) : h.between ++ h.delim :: body = blanks ++ d :: (more ++ body) := by
    have here := congrArg (· ++ body) parts
    simpa only [List.append_assoc, List.cons_append, List.nil_append] using here
  have line (body : Text) : h.line body = (h.lead ++ (h.range ++ h.gap)) ++
      (h.name ++ (blanks ++ d :: (more ++ body))) := by
    rw [SubstituteHead.line_eq, whole]
    simp only [List.append_assoc]
  have split (body : Text) := splitExBar_substitute
    (addresses_passed passed (spelled.stops (fun c letter => not_scansOn_of_isAlpha letter) _)) spelled
    (whole body ▸ reads.stops body) all other
  have front : h.front ++ [h.delim] = h.lead ++ (h.range ++ (h.gap ++ (h.name ++
      (blanks ++ d :: more)))) := by
    rw [← parts, SubstituteHead.front]
    simp only [List.append_assoc]
  constructor
  · intro opens
    refine ⟨?_, fun body => ?_⟩
    · rw [front]
      simp only [List.append_assoc]
    · rw [line, split, if_pos opens]
      simp only [List.append_assoc, List.cons_append]
  · intro opens
    refine ⟨?_, fun body => ?_⟩
    · rw [front]
      simp only [List.append_assoc, List.singleton_append]
    · rw [line, split, opens, if_neg Bool.false_ne_true]
      simp only [List.append_assoc]

/-! ### Cuts -/

/-- The cut of a line with the head falls in no section that `split_substitute` reads off it. -/
def CutOutside (ed : Editor) (h : SubstituteHead) (body : Text) : Prop :=
  ∀ r args delim text part tail, executeExOne ed (h.line body) = .exSubstitute r args →
    ed.substituteBody args = some (delim, text) →
    splitExBar (h.line body) = some (some (h.front ++ h.delim :: part, tail)) →
    ¬ InSections delim text part

theorem cutOutside_of_cuts (reads : h.Reads ed) (outside : ∀ part tail, splitExBar (h.line body) =
      some (some (h.front ++ h.delim :: part, tail)) → ¬ InSections h.delim body part) :
    CutOutside ed h body := by
  intro r args delim text part tail runs accepted cut inside
  obtain ⟨r', args', runs', accepted'⟩ := dispatch_line reads body
  rw [runs] at runs'
  cases runs'
  rw [accepted] at accepted'
  cases accepted'
  exact outside part tail cut (inside.of_prefix (trimEnd_front body))

theorem not_cutOutside_of_cut (reads : h.Reads ed) (part : Text)
    (cut : splitExBar (h.line (part ++ '|' :: tail)) = some (some (h.front ++ h.delim :: part, tail)))
    (kept : trimEnd (part ++ '|' :: tail) = part ++ '|' :: tail)
    (inside : InSections h.delim (part ++ '|' :: tail) part) :
    ¬ CutOutside ed h (part ++ '|' :: tail) := by
  intro outside
  obtain ⟨r, args, runs, accepted⟩ := dispatch_line reads (part ++ '|' :: tail)
  rw [kept] at accepted
  exact outside r args h.delim _ part tail runs accepted cut inside

/-- The scan over what is clean of the head, and the body. -/
theorem SplitsBy.cut_of_clean (splits : SplitsBy h pre mid first sections) (clean : Clean mid)
    (found : ∀ left ≤ sections, scanBar first false left body = some (part, tail)) :
    splitExBar (h.line body) = some (some (h.front ++ h.delim :: part, tail)) := by
  obtain ⟨left, few, scanned⟩ := scanBar_append first clean sections body
  apply splits.cut
  rw [scanned, found left few]
  rfl

theorem rawSection_self {delim : Char} (plain : ∀ c ∈ body, c ≠ '\\' ∧ c ≠ delim) :
    rawSection delim false body = body := by
  induction body with
  | nil => rfl
  | cons c body ih =>
      rw [List.forall_mem_cons] at plain
      rw [rawSection, if_neg plain.1.1, if_neg plain.1.2, ih plain.2]

/-- A bar behind text without the delimiter stands in the pattern. -/
theorem inSections_of_plain {delim : Char} (plain : ∀ c ∈ part, c ≠ '\\' ∧ c ≠ delim)
    (bar : delim ≠ '|') : InSections delim (part ++ ['|']) part := by
  have all : ∀ c ∈ part ++ ['|'], c ≠ '\\' ∧ c ≠ delim := by
    rw [List.forall_mem_append, List.forall_mem_singleton]
    exact ⟨plain, by decide, bar.symm⟩
  left
  rw [rawSection_self all, List.length_append]
  exact Nat.lt_succ_self _

theorem trimEnd_bar (part : Text) : trimEnd (part ++ ['|']) = part ++ ['|'] := by
  rw [trimEnd, List.rdropWhile_concat_neg]
  decide

/-- Two characters with the delimiter's first byte close the sections, if any is left. -/
theorem scanBar_pair (bar : w ≠ '|') (backslash : w ≠ '\\') {left : Nat} (few : left ≤ 2) :
    scanBar (leadByte w) false left [w, w, '|'] = some ([w, w], []) := by
  have close (left : Nat) (text : Text) : scanBar (leadByte w) false (left + 1) (w :: text) =
      (scanBar (leadByte w) false left text).map fun parts => (w :: parts.1, parts.2) := by
    rw [scanBar, if_pos rfl]
  have pass (text : Text) : scanBar (leadByte w) false 0 (w :: text) =
      (scanBar (leadByte w) false 0 text).map fun parts => (w :: parts.1, parts.2) := by
    rw [scanBar, if_neg bar, decide_eq_false backslash]
  have found : scanBar (leadByte w) false 0 ['|'] = some ([], []) := rfl
  obtain rfl | rfl | rfl : left = 0 ∨ left = 1 ∨ left = 2 := by omega
  · rw [pass, pass, found]
    rfl
  · rw [close, pass, found]
    rfl
  · rw [close, close, found]
    rfl

/-- A head that lets the cut fall into a pattern of two characters and a bar. -/
theorem not_cutOutside_pair (reads : h.Reads ed) (splits : SplitsBy h pre mid (leadByte w) 2)
    (clean : Clean mid) (bar : w ≠ '|') (backslash : w ≠ '\\') (other : w ≠ h.delim)
    (delim : h.delim ≠ '|') : ¬ CutOutside ed h [w, w, '|'] := by
  have cut := splits.cut_of_clean clean fun left few => scanBar_pair bar backslash few
  have plain : ∀ c ∈ [w, w], c ≠ '\\' ∧ c ≠ h.delim := by
    rw [List.forall_mem_cons, List.forall_mem_singleton]
    exact ⟨⟨backslash, other⟩, backslash, other⟩
  exact not_cutOutside_of_cut reads [w, w] cut (trimEnd_bar _)
    (inSections_of_plain plain delim)

theorem clean_delim (reads : h.Reads ed) (delim : h.delim ≠ '|') : Clean [h.delim] :=
  List.forall_mem_singleton.2 ⟨delim, reads.backslash⟩

/-- Other white space about the range lets a bar in the pattern cut. -/
theorem not_cutOutside_stopped (reads : h.Reads ed) (delim : h.delim ≠ '|')
    (other : ¬ ((∀ c ∈ h.lead, isBlank c = true) ∧ ∀ c ∈ h.gap, isBlank c = true)) :
    ¬ CutOutside ed h ['|'] := by
  obtain ⟨pre, mid, splits, clean⟩ := splits_stopped reads other
  have found : ∀ left ≤ 0, scanBar 0 false left ['|'] = some ([], []) := by
    intro left few
    rw [Nat.le_zero.1 few]
    rfl
  have cut := splits.cut_of_clean (clean.append (clean_delim reads delim)) found
  exact not_cutOutside_of_cut reads [] cut (trimEnd_bar []) (inSections_of_plain nofun delim)

/-- A `!` is the splitter's delimiter, and not the dispatch's. -/
theorem not_cutOutside_bang (reads : h.Reads ed) (delim : h.delim ≠ '|')
    (lead : ∀ c ∈ h.lead, isBlank c = true) (gap : ∀ c ∈ h.gap, isBlank c = true)
    (bang : h.bang = true) : ∃ body, ¬ CutOutside ed h body := by
  have parts : h.between ++ [h.delim] = [] ++ '!' :: (h.space ++ [h.delim]) := by
    rw [SubstituteHead.between, bang]
    rfl
  have opens : opensNothing (leadByte '!') = false := by decide
  have splits := (splits_named reads lead gap parts nofun rfl).2 opens
  have space := clean_of_white reads.space
  by_cases same : h.delim = '!'
  · -- The delimiter closes the splitter's first section.
    have cut : splitExBar (h.line ['!', '|']) = some (some (h.front ++ h.delim :: ['!'], [])) := by
      apply splits.cut
      obtain ⟨left, few, scanned⟩ :=
        scanBar_append (leadByte '!') space 2 ('!' :: ['!', '|'])
      rw [same, List.append_assoc, List.append_assoc, List.singleton_append, List.singleton_append,
        scanned]
      obtain rfl | rfl | rfl : left = 0 ∨ left = 1 ∨ left = 2 := by omega
      · rfl
      · rfl
      · rfl
    refine ⟨_, not_cutOutside_of_cut reads ['!'] cut (trimEnd_bar ['!']) ?_⟩
    rw [same]
    exact Or.inr ⟨Nat.le_refl _, Nat.lt_succ_self _⟩
  · exact ⟨_, not_cutOutside_pair reads splits (space.append (clean_delim reads delim)) (by decide)
      (by decide) (Ne.symm same) delim⟩

/-- Other white space before the delimiter is the splitter's delimiter. -/
theorem not_cutOutside_space (reads : h.Reads ed) (delim : h.delim ≠ '|')
    (lead : ∀ c ∈ h.lead, isBlank c = true) (gap : ∀ c ∈ h.gap, isBlank c = true)
    (bang : h.bang = false) (other : ¬ ∀ c ∈ h.space, isBlank c = true) :
    ∃ body, ¬ CutOutside ed h body := by
  obtain ⟨blanks, w, more, space, all, blank⟩ := exists_nonblank other
  have white := reads.space
  rw [space, List.forall_mem_append, List.forall_mem_cons] at white
  obtain ⟨-, w_white, more_white⟩ := white
  have parts : h.between ++ [h.delim] = blanks ++ w :: (more ++ [h.delim]) := by
    rw [SubstituteHead.between, bang, space, if_neg Bool.false_ne_true, List.nil_append,
      List.append_assoc]
    rfl
  have splits := (splits_named reads lead gap parts all blank).2 (opensNothing_white w_white)
  have w_clean := clean_of_white (List.forall_mem_singleton.2 w_white) w List.mem_cons_self
  refine ⟨_, not_cutOutside_pair reads splits
    ((clean_of_white more_white).append (clean_delim reads delim)) w_clean.1 w_clean.2 ?_ delim⟩
  rintro rfl
  rw [reads.white] at w_white
  cases w_white

/-- Another character starts with a wide delimiter's first byte. -/
theorem not_cutOutside_wide (reads : h.Reads ed) (delim : h.delim ≠ '|')
    (lead : ∀ c ∈ h.lead, isBlank c = true) (gap : ∀ c ∈ h.gap, isBlank c = true)
    (bang : h.bang = false) (space : ∀ c ∈ h.space, isBlank c = true)
    (wide : 128 ≤ h.delim.toNat) : ∃ body, ¬ CutOutside ed h body := by
  have parts : h.between ++ [h.delim] = h.space ++ h.delim :: [] := by
    rw [SubstituteHead.between, bang]
    rfl
  have splits := (splits_named reads lead gap parts space reads.delim_not_blank).2 (opensNothing_wide wide)
  obtain ⟨w, other, same⟩ := exists_same_lead wide
  rw [← same] at splits
  have wide' : ∀ {d : Char}, d.toNat < 128 → w ≠ d := by
    rintro d ascii rfl
    rw [← leadByte_lt_iff, same, leadByte_lt_iff] at ascii
    omega
  exact ⟨_, not_cutOutside_pair reads splits nofun (wide' (by decide)) (wide' (by decide)) other delim⟩

/-- Where the delimiter is a bar, a cut in the body is at a delimiter. -/
theorem cutOutside_of_scan (reads : h.Reads ed) (delim : h.delim = '|')
    (splits : SplitsBy h pre (mid ++ [h.delim]) first sections) (clean : Clean mid)
    (plain : first ≠ '\\'.toUInt8) (body : Text) : CutOutside ed h body := by
  apply cutOutside_of_cuts reads
  intro part tail cut
  have found := splits.of_cut cut
  obtain ⟨left, -, scanned⟩ := scanBar_append first clean sections (h.delim :: body)
  rw [List.append_assoc, List.append_assoc, List.singleton_append, List.singleton_append, scanned]
    at found
  obtain ⟨⟨seg, tail'⟩, inner, same⟩ := Option.map_eq_some_iff.1 found
  rw [Prod.mk.injEq] at same
  obtain rfl := List.append_cancel_left same.1
  obtain rfl := same.2
  rw [delim] at inner ⊢
  obtain ⟨left', behind⟩ : ∃ left', scanBar first false left' body = some (part, tail') := by
    cases left with
    | zero => cases inner
    | succ left =>
        rw [scanBar] at inner
        split at inner
        · obtain ⟨_, behind, step⟩ := Option.map_eq_some_iff.1 inner
          cases step
          exact ⟨left, behind⟩
        · obtain ⟨_, behind, step⟩ := Option.map_eq_some_iff.1 inner
          cases step
          exact ⟨left + 1, behind⟩
  rw [scanBar_eq_some behind]
  exact not_inSections_delim (by decide) (endsEscaped_of_scanBar plain behind) tail'

theorem cutOutside_bar (reads : h.Reads ed) (delim : h.delim = '|') (body : Text) :
    CutOutside ed h body := by
  by_cases blank : (∀ c ∈ h.lead, isBlank c = true) ∧ ∀ c ∈ h.gap, isBlank c = true
  · obtain ⟨lead, gap⟩ := blank
    by_cases space : h.between = h.space ∧ ∀ c ∈ h.space, isBlank c = true
    · have parts : h.between ++ [h.delim] = h.space ++ h.delim :: [] := by
        rw [space.1]
      have opens : opensNothing (leadByte h.delim) = true := by
        rw [delim]
        decide
      have splits : SplitsBy h _ ([] ++ [h.delim]) 0 0 :=
        (splits_named reads lead gap parts space.2 reads.delim_not_blank).1 opens
      exact cutOutside_of_scan reads delim splits nofun (by decide) body
    · -- Another character takes the delimiter's place.
      obtain ⟨blanks, w, more, parts, all, other, white⟩ : ∃ blanks w more,
          h.between = blanks ++ w :: more ∧ (∀ c ∈ blanks, isBlank c = true) ∧ isBlank w = false ∧
            (w = '!' ∨ isWhitespace w = true) := by
        cases bang : h.bang with
        | true =>
            refine ⟨[], '!', h.space, ?_, nofun, rfl, Or.inl rfl⟩
            rw [SubstituteHead.between, bang]
            rfl
        | false =>
            have same : h.between = h.space := by
              rw [SubstituteHead.between, bang]
              rfl
            obtain ⟨blanks, w, more, space, all, other⟩ := exists_nonblank fun all => space ⟨same, all⟩
            refine ⟨blanks, w, more, same.trans space, all, other, Or.inr (reads.space w ?_)⟩
            rw [space]
            exact List.mem_append_right _ List.mem_cons_self
      have whole : h.between ++ [h.delim] = blanks ++ w :: (more ++ [h.delim]) := by
        rw [parts, List.append_assoc, List.cons_append]
      have opens : opensNothing (leadByte w) = false := by
        rcases white with rfl | white
        · decide
        · exact opensNothing_white white
      have splits := (splits_named reads lead gap whole all other).2 opens
      have clean : Clean (blanks ++ w :: more) := parts ▸ clean_between reads
      have plain : leadByte w ≠ '\\'.toUInt8 := by
        intro same
        have inside := clean w (List.mem_append_right _ List.mem_cons_self)
        exact inside.2 ((leadByte_eq_toUInt8 (by decide)).1 same)
      refine cutOutside_of_scan reads delim splits (fun c member => clean c ?_) plain body
      exact List.mem_append_right _ (List.mem_cons_of_mem _ member)
  · obtain ⟨pre, mid, splits, clean⟩ := splits_stopped reads blank
    exact cutOutside_of_scan reads delim splits clean (by decide) body

theorem cutOutside_plain (reads : h.Reads ed) (plain : h.Plain) (delim : h.delim ≠ '|')
    (body : Text) : CutOutside ed h body := by
  have parts : h.between ++ [h.delim] = h.space ++ h.delim :: [] := by
    rw [SubstituteHead.between, plain.bang]
    rfl
  have opens : opensNothing (leadByte h.delim) = false := by
    have letter := reads.plain
    rw [ed.alphanumeric_ascii _ plain.ascii] at letter
    rw [opensNothing_ascii plain.ascii, letter]
    simp [reads.backslash, reads.quote, delim]
  have splits :=
    (splits_named reads plain.lead plain.gap parts plain.space reads.delim_not_blank).2 opens
  apply cutOutside_of_cuts reads
  intro part tail cut
  exact not_inSections_scan plain.ascii reads.backslash (splits.of_cut cut)

/-- **The heads whose cuts stay out of every pattern and every replacement.** -/
theorem cutOutside_iff (reads : h.Reads ed) :
    (∀ body, CutOutside ed h body) ↔ h.delim = '|' ∨ h.Plain := by
  constructor
  · intro outside
    by_contra other
    obtain ⟨delim, plain⟩ := not_or.1 other
    have fails : ∃ body, ¬ CutOutside ed h body := by
      by_cases blank : (∀ c ∈ h.lead, isBlank c = true) ∧ ∀ c ∈ h.gap, isBlank c = true
      · obtain ⟨lead, gap⟩ := blank
        cases bang : h.bang with
        | true => exact not_cutOutside_bang reads delim lead gap bang
        | false =>
            by_cases space : ∀ c ∈ h.space, isBlank c = true
            · rcases Nat.lt_or_ge h.delim.toNat 128 with ascii | wide
              · exact absurd ⟨lead, gap, bang, space, ascii⟩ plain
              · exact not_cutOutside_wide reads delim lead gap bang space wide
            · exact not_cutOutside_space reads delim lead gap bang space
      · exact ⟨_, not_cutOutside_stopped reads delim blank⟩
    obtain ⟨body, inside⟩ := fails
    exact inside (outside body)
  · rintro (delim | plain) body
    · exact cutOutside_bar reads delim body
    · by_cases delim : h.delim = '|'
      · exact cutOutside_bar reads delim body
      · exact cutOutside_plain reads plain delim body

end

/-! ### Where the splitter is right -/

/-- **Where the splitter keeps its promises.** It leaves the two sides of a bar unless the addresses in
front come to a mark with a wide name; it finds a command's name where the dispatch does on a plain line
only; and it cuts no pattern or replacement behind a plain head, or where the delimiter is the bar. -/
theorem bar_split_iff (ed : Editor) (line : Text) :
    (SplitsSafely line ↔ MarksAscii line) ∧
    (∀ pos, nameAt ed line = some pos → (exNameStart line = pos ↔ PlainLine ed line)) ∧
    (∀ h : SubstituteHead, h.Reads ed →
      ((∀ body, CutOutside ed h body) ↔ h.delim = '|' ∨ h.Plain)) := by
  refine ⟨splitsSafely_iff line, ?_, ?_⟩
  · intro pos found
    exact nameStart_iff found
  · intro h reads
    exact cutOutside_iff reads

theorem bar_split_slash :
    ∀ body, CutOutside .empty ⟨[], ['%'], [], ['s'], false, [], '/'⟩ body := by
  obtain ⟨-, -, heads⟩ := bar_split_iff .empty "%s/a/b/|p".toList
  have none_other {p : Char → Prop} : ∀ c ∈ ([] : Text), p c := List.forall_mem_nil p
  exact (heads _ ⟨none_other, ⟨_, rfl⟩, none_other, by decide, none_other, by decide,
    rfl, by decide, by decide, rfl, fun _ => by decide⟩).2
      (Or.inr ⟨none_other, none_other, rfl, none_other, by decide⟩)

/-- A mark named `é`, a `:` before a name, and a pattern between `§`. -/
theorem bar_split_fails :
    splitExBar "'é|p".toList = none ∧
    nameAt .empty ":s/a/b/".toList = some 0 ∧ exNameStart ":s/a/b/".toList = 1 ∧
    executeExOne .empty "s§££|p§x§".toList =
      .exSubstitute ⟨0, 0, false⟩ "§££|p§x§".toList ∧
    splitSubstitute "££|p§x§".toList '§' = ("££|p".toList, "x".toList, []) ∧
    splitExBar "s§££|p§x§".toList = some (some ("s§££".toList, "p§x§".toList)) := by
  decide +kernel

end Bemtvi.Core.ExLine
