/-
Module: Bemtvi.Core.ExRanges
Purpose: What a range reads of a command line and leaves, and where the command's name is then taken to
  start by the splitter and by the dispatch.
Trusted boundary: none
Main exports: Stops, parseExRange_spec, nameAt, PlainLine, nameStart_iff
-/
import Bemtvi.Core.ExBars

namespace Bemtvi.Core.ExLine

open Utf8
open Word (saturate)

/-- No character of a kind comes next. -/
def Stops (p : Char → Bool) (tail : Text) : Prop := ∀ c, tail.head? = some c → p c = false

theorem Stops.nil (p : Char → Bool) : Stops p [] := nofun

variable {c : Char} {p : Char → Bool} {tail back front text lead name : Text} {ed : Editor}
  {pos : Nat}

theorem Stops.cons (other : p c = false) (tail : Text) : Stops p (c :: tail) := by
  rintro _ ⟨⟩
  exact other

theorem Stops.mono {q : Char → Bool} (stops : Stops q tail)
    (implies : ∀ c, p c = true → q c = true) : Stops p tail := by
  intro c here
  have other := stops c here
  rw [Bool.eq_false_iff] at other ⊢
  exact fun holds => other (implies c holds)

/-- A character that an offset is made of. -/
def isOffsetChar (c : Char) : Bool := c.isDigit || c == '+' || c == '-'

/-- A character that an address starts with. -/
def opensAddress (c : Char) : Bool := isOffsetChar c || c == '.' || c == '$' || c == '\''

/-- A character that a range starts or goes on with. -/
def isRangeChar (c : Char) : Bool := opensAddress c || c == ',' || c == ';' || c == '%'

/-- Text without a bar or a backslash. -/
def Clean (text : Text) : Prop := ∀ c ∈ text, c ≠ '|' ∧ c ≠ '\\'

theorem Clean.append (first : Clean front) (second : Clean back) : Clean (front ++ back) := by
  rw [Clean, List.forall_mem_append]
  exact ⟨first, second⟩

/-- Text the splitter passes over as addresses, whatever follows it. -/
structure Passed (text : Text) : Prop where
  passes : ∀ tail, addresses .between (text ++ tail) = (addresses .between tail).map (text ++ ·)
  clean : Clean text

theorem Passed.nil : Passed [] := by
  refine ⟨fun tail => ?_, nofun⟩
  rw [List.nil_append]
  exact (Option.map_id' ..).symm

theorem Passed.append (first : Passed front) (second : Passed back) : Passed (front ++ back) := by
  refine ⟨fun tail => ?_, first.clean.append second.clean⟩
  rw [List.append_assoc, first.passes, second.passes, Option.map_map]
  simp only [Function.comp_def, List.append_assoc]

theorem Passed.char (address : isAddressChar c = true) : Passed [c] := by
  refine ⟨fun tail => ?_, ?_⟩
  · rw [List.singleton_append, addresses, if_pos address]
    rfl
  · rw [Clean, List.forall_mem_singleton]
    constructor
    · rintro rfl
      cases address
    · rintro rfl
      cases address

theorem Passed.chars (all : ∀ c ∈ text, isAddressChar c = true) : Passed text := by
  induction text with
  | nil => exact .nil
  | cons c text ih =>
      rw [List.forall_mem_cons] at all
      exact (Passed.char all.1).append (ih all.2)

theorem Passed.mark {m : Char} (ascii : m.toNat < 128) (bar : m ≠ '|') (backslash : m ≠ '\\') :
    Passed ['\'', m] := by
  refine ⟨fun tail => ?_, ?_⟩
  · rw [List.cons_append, List.singleton_append, addresses, if_neg (by decide), if_pos rfl, addresses,
      if_pos ascii, Option.map_map]
    rfl
  · rw [Clean, List.forall_mem_cons, List.forall_mem_singleton]
    exact ⟨⟨by decide, by decide⟩, bar, backslash⟩

theorem isAddressChar_of_isDigit (digit : c.isDigit = true) : isAddressChar c = true := by
  rw [isAddressChar, digit, Bool.or_true]

/-! ### Numbers and offsets -/

theorem readDigits_stops (n : Int) (stops : Stops Char.isDigit tail) :
    readDigits n tail = (n, tail) := by
  cases tail with
  | nil => rfl
  | cons c tail =>
      rw [readDigits, stops c rfl]
      rfl

theorem readDigits_spec (n : Int) (text : Text) :
    ∃ digits, text = digits ++ (readDigits n text).2 ∧ (∀ c ∈ digits, c.isDigit = true) ∧
      ∀ tail, Stops Char.isDigit tail →
        readDigits n (digits ++ tail) = ((readDigits n text).1, tail) := by
  induction text generalizing n with
  | nil => exact ⟨[], rfl, List.forall_mem_nil _, fun tail stops => readDigits_stops n stops⟩
  | cons c text ih =>
      rw [readDigits]
      by_cases digit : c.isDigit
      · obtain ⟨digits, parts, all, again⟩ :=
          ih (saturate (saturate (n * 10) + (c.toNat - '0'.toNat : Nat)))
        rw [if_pos digit]
        refine ⟨c :: digits, ?_, ?_, fun tail stops => ?_⟩
        · rw [List.cons_append, ← parts]
        · rw [List.forall_mem_cons]
          exact ⟨digit, all⟩
        · rw [List.cons_append, readDigits, if_pos digit, again tail stops]
      · rw [if_neg digit]
        exact ⟨[], rfl, List.forall_mem_nil _, fun tail stops => readDigits_stops n stops⟩

theorem readOffsets_stops {line : Int} (stops : Stops isOffsetChar tail) :
    readOffsets line tail = (line, tail) := by
  cases tail with
  | nil => rw [readOffsets]
  | cons c tail =>
      have other := stops c rfl
      simp only [isOffsetChar, Bool.or_eq_false_iff, beq_eq_false_iff_ne] at other
      rw [readOffsets, if_neg (not_or.2 ⟨other.1.2, other.2⟩)]

/-- The line after one offset. -/
def offsetLine (line : Int) (sign : Char) (read : Int) (bare : Prop) [Decidable bare] : Int :=
  saturate (if sign = '+' then line + (if bare then 1 else read) else line - (if bare then 1 else read))

theorem readOffsets_cons {sign : Char} (signed : sign = '+' ∨ sign = '-') (line : Int) (text : Text) :
    readOffsets line (sign :: text) =
      readOffsets (offsetLine line sign (readDigits 0 text).1
        ((readDigits 0 text).2.length = text.length)) (readDigits 0 text).2 := by
  rw [readOffsets, if_pos signed]
  rfl

/-- Offsets, whatever follows them. -/
theorem readOffsets_spec : ∀ (line : Int) (text : Text),
    ∃ offsets, text = offsets ++ (readOffsets line text).2 ∧
      (∀ c ∈ offsets, isAddressChar c = true) ∧ Stops Char.isDigit offsets ∧
      ∀ tail, Stops isOffsetChar tail →
        readOffsets line (offsets ++ tail) = ((readOffsets line text).1, tail)
  | line, [] => by
      rw [readOffsets]
      exact ⟨[], rfl, List.forall_mem_nil _, .nil _, fun tail stops => readOffsets_stops stops⟩
  | line, sign :: text => by
      by_cases signed : sign = '+' ∨ sign = '-'
      · obtain ⟨digits, parts, all, again⟩ := readDigits_spec 0 text
        obtain ⟨offsets, parts', all', opens, again'⟩ := readOffsets_spec
          (offsetLine line sign (readDigits 0 text).1 ((readDigits 0 text).2.length = text.length))
          (readDigits 0 text).2
        rw [readOffsets_cons signed]
        refine ⟨sign :: (digits ++ offsets), ?_, ?_, ?_, fun tail stops => ?_⟩
        · rw [List.cons_append, List.append_assoc, ← parts', ← parts]
        · rw [List.forall_mem_cons, List.forall_mem_append]
          refine ⟨?_, fun c member => isAddressChar_of_isDigit (all c member), all'⟩
          rcases signed with rfl | rfl <;> rfl
        · apply Stops.cons
          rcases signed with rfl | rfl <;> rfl
        · have stops' : Stops Char.isDigit (offsets ++ tail) := by
            cases offsets with
            | nil => exact stops.mono fun c digit => by rw [isOffsetChar, digit]; rfl
            | cons c offsets => exact opens
          have none_read : ((offsets ++ tail).length = (digits ++ (offsets ++ tail)).length) =
              ((readDigits 0 text).2.length = text.length) := by
            have whole := congrArg List.length parts
            simp only [List.length_append] at whole ⊢
            apply propext
            omega
          rw [List.cons_append, List.append_assoc, readOffsets_cons signed, again _ stops']
          simp only [none_read]
          exact again' tail stops
      · rw [readOffsets, if_neg signed]
        exact ⟨[], rfl, List.forall_mem_nil _, .nil _, fun tail stops => readOffsets_stops stops⟩
termination_by _ text => text.length
decreasing_by exact Nat.lt_succ_of_le (length_readDigits 0 text)

/-! ### Addresses and ranges -/

@[simp] theorem addressOffsets_true (cmd : Text) (line : Int) (rest : Text) :
    addressOffsets cmd line true rest = (some (readOffsets line rest).1, (readOffsets line rest).2) := by
  simp [addressOffsets]

/-- A mark that is set has an ASCII name, and not a bar or a backslash. -/
theorem Passed.of_jumpable {m : Char} (jumpable : isJumpableMark (markName m) = true) :
    Passed ['\'', m] := by
  have codes : ∀ n < 256, 128 ≤ n → isJumpableMark (Char.ofNat n) = false := by decide +kernel
  have ascii : m.toNat < 128 := by
    rw [← leadByte_lt_iff]
    by_contra wide
    rw [markName, codes _ (leadByte m).toNat_lt (Nat.le_of_not_lt wide)] at jumpable
    cases jumpable
  rw [markName, toNat_leadByte_ascii ascii, Char.ofNat_toNat] at jumpable
  refine .mark ascii ?_ ?_
  · rintro rfl
    cases jumpable
  · rintro rfl
    cases jumpable

/-- An address, whatever follows it. -/
structure ReadsAddress (ed : Editor) (base : Nat) (raw : Option Int) (address : Text) : Prop where
  passed : Passed address
  absent : raw = none → address = []
  again : ∀ tail, Stops opensAddress tail →
    parseExAddressRaw ed base (address ++ tail) = .ok (raw, tail)

section
variable {ed : Editor} {base : Nat}

theorem Stops.offsets {tail : Text} (stops : Stops opensAddress tail) : Stops isOffsetChar tail :=
  stops.mono fun c offset => by
    rw [opensAddress, offset]
    rfl

variable {c : Char} {raw : Option Int} {rest : Text}

theorem not_opensAddress (other : opensAddress c = false) :
    c ≠ '.' ∧ c ≠ '$' ∧ c ≠ '\'' ∧ c.isDigit = false := by
  simp only [opensAddress, isOffsetChar, Bool.or_eq_false_iff, beq_eq_false_iff_ne] at other
  exact ⟨other.1.1.2, other.1.2, other.2, other.1.1.1.1.1⟩

theorem parseExAddressRaw_stops {tail : Text} (stops : Stops opensAddress tail) :
    parseExAddressRaw ed base tail = .ok (none, tail) := by
  cases tail with
  | nil => rfl
  | cons c tail =>
      obtain ⟨dot, dollar, quote, digit⟩ := not_opensAddress (stops c rfl)
      rw [parseExAddressRaw, if_neg dot, if_neg dollar, if_neg quote, digit,
        if_neg Bool.false_ne_true, addressOffsets, readOffsets_stops stops.offsets]
      simp

/-- A base and its offsets. -/
theorem ReadsAddress.of_base (token : Text) (line : Int) (passed : Passed token)
    (reads : ∀ tail, Stops Char.isDigit tail → parseExAddressRaw ed base (token ++ tail) =
      .ok (some (readOffsets line tail).1, (readOffsets line tail).2)) (rest : Text) :
    ∃ address, token ++ rest = address ++ (readOffsets line rest).2 ∧
      ReadsAddress ed base (some (readOffsets line rest).1) address := by
  obtain ⟨offsets, parts, all, opens, again⟩ := readOffsets_spec line rest
  refine ⟨token ++ offsets, ?_, passed.append (.chars all), nofun, fun tail stops => ?_⟩
  · rw [List.append_assoc, ← parts]
  · have stops' : Stops Char.isDigit (offsets ++ tail) := by
      cases offsets with
      | nil => exact fun c here => (not_opensAddress (stops c here)).2.2.2
      | cons c offsets => exact opens
    rw [List.append_assoc, reads _ stops', again tail stops.offsets]

/-- A line number and its offsets. -/
theorem ReadsAddress.of_digits {text : Text} (dot : c ≠ '.') (dollar : c ≠ '$') (quote : c ≠ '\'')
    (digit : c.isDigit = true)
    (read : (Except.ok (addressOffsets (c :: text) ((readDigits 0 (c :: text)).1 - 1) true
      (readDigits 0 (c :: text)).2) : Except Text (Option Int × Text)) = .ok (raw, rest)) :
    ∃ address, c :: text = address ++ rest ∧ ReadsAddress ed base raw address := by
  have first (text : Text) : readDigits 0 (c :: text) =
      readDigits (saturate (saturate (0 * 10) + (c.toNat - '0'.toNat : Nat))) text := by
    rw [readDigits, if_pos digit]
  obtain ⟨digits, parts, all, again⟩ :=
    readDigits_spec (saturate (saturate (0 * 10) + (c.toNat - '0'.toNat : Nat))) text
  rw [← first] at parts again
  rw [addressOffsets_true] at read
  cases read
  have passed : Passed (c :: digits) := by
    apply Passed.chars
    rw [List.forall_mem_cons]
    exact ⟨isAddressChar_of_isDigit digit, fun c' member => isAddressChar_of_isDigit (all c' member)⟩
  have again' (tail : Text) (stops : Stops Char.isDigit tail) :
      parseExAddressRaw ed base (c :: digits ++ tail) =
        .ok (some (readOffsets ((readDigits 0 (c :: text)).1 - 1) tail).1,
          (readOffsets ((readDigits 0 (c :: text)).1 - 1) tail).2) := by
    rw [List.cons_append, parseExAddressRaw, if_neg dot, if_neg dollar, if_neg quote, if_pos digit]
    simp only [addressOffsets_true]
    rw [first, again tail stops]
  have reads := ReadsAddress.of_base (c :: digits) ((readDigits 0 (c :: text)).1 - 1) passed again'
    (readDigits 0 (c :: text)).2
  rwa [List.cons_append, ← parts] at reads

/-- Offsets without a base. -/
theorem ReadsAddress.of_offsets {text : Text} (dot : c ≠ '.') (dollar : c ≠ '$')
    (quote : c ≠ '\'') (digit : ¬ c.isDigit = true)
    (read : (Except.ok (addressOffsets (c :: text) base false (c :: text)) :
      Except Text (Option Int × Text)) = .ok (raw, rest)) :
    ∃ address, c :: text = address ++ rest ∧ ReadsAddress ed base raw address := by
  obtain ⟨offsets, parts, all, opens, again⟩ := readOffsets_spec base (c :: text)
  rw [addressOffsets] at read
  by_cases absent : (readOffsets base (c :: text)).2.length = (c :: text).length
  · rw [if_pos ⟨rfl, absent⟩] at read
    cases read
    exact ⟨[], rfl, .nil, fun _ => rfl, fun tail stops => parseExAddressRaw_stops stops⟩
  · rw [if_neg (not_and.2 fun _ => absent)] at read
    cases read
    refine ⟨offsets, parts, .chars all, nofun, fun tail stops => ?_⟩
    cases offsets with
    | nil =>
        rw [List.nil_append] at parts
        exact absurd (congrArg List.length parts.symm) absent
    | cons c' offsets =>
        obtain ⟨rfl, -⟩ := List.cons_eq_cons.1 parts
        have shorter : ¬ tail.length = (c :: (offsets ++ tail)).length := by
          rw [List.length_cons, List.length_append]
          omega
        rw [List.cons_append, parseExAddressRaw, if_neg dot, if_neg dollar, if_neg quote,
          if_neg digit, addressOffsets]
        have more := again tail stops.offsets
        rw [List.cons_append] at more
        rw [more, if_neg (not_and.2 fun _ => shorter)]

theorem parseExAddressRaw_spec {cmd : Text}
    (read : parseExAddressRaw ed base cmd = .ok (raw, rest)) :
    ∃ address, cmd = address ++ rest ∧ ReadsAddress ed base raw address := by
  cases cmd with
  | nil =>
      cases read
      exact ⟨[], rfl, .nil, fun _ => rfl, fun tail stops => parseExAddressRaw_stops stops⟩
  | cons c text =>
      rw [parseExAddressRaw] at read
      split at read
      · next dot =>
          subst dot
          rw [addressOffsets_true] at read
          cases read
          refine ReadsAddress.of_base ['.'] base (.char rfl) (fun tail _ => ?_) text
          rw [List.singleton_append, parseExAddressRaw, if_pos rfl, addressOffsets_true]
      · split at read
        · next dollar =>
            subst dollar
            rw [addressOffsets_true] at read
            cases read
            refine ReadsAddress.of_base ['$'] ed.lastLine (.char rfl) (fun tail _ => ?_) text
            rw [List.singleton_append, parseExAddressRaw, if_neg (by decide), if_pos rfl,
              addressOffsets_true]
        · split at read
          · next quote =>
              subst quote
              cases text with
              | nil => cases read
              | cons m text =>
                  simp only [List.head?_cons, Option.bind_some, List.tail_cons] at read
                  cases set : ed.marks (markName m) with
                  | none =>
                      rw [set] at read
                      cases read
                  | some line =>
                      simp only [set, addressOffsets_true] at read
                      cases read
                      have named := ed.marks_named (markName m) (by rw [set]; rfl)
                      refine ReadsAddress.of_base ['\'', m] line (.of_jumpable named)
                        (fun tail _ => ?_) text
                      rw [List.cons_append, List.singleton_append, parseExAddressRaw,
                        if_neg (by decide), if_neg (by decide), if_pos rfl]
                      simp only [List.head?_cons, Option.bind_some, set, List.tail_cons,
                        addressOffsets_true]
          · next dot dollar quote =>
              split at read
              · next digit => exact ReadsAddress.of_digits dot dollar quote digit read
              · next digit => exact ReadsAddress.of_offsets dot dollar quote digit read

end

/-- A range, whatever follows it. -/
structure ReadsRange (ed : Editor) (range : ExRange) (text : Text) : Prop where
  passed : Passed text
  again : ∀ tail, Stops isRangeChar tail → parseExRange ed (text ++ tail) = .ok (range, tail)

theorem Stops.opensAddress (stops : Stops isRangeChar tail) : Stops ExLine.opensAddress tail :=
  stops.mono fun c opens => by
    rw [isRangeChar, opens]
    rfl

theorem Stops.head_ne (stops : Stops p tail) (holds : p c = true) : tail.head? ≠ some c := by
  intro here
  rw [stops c here] at holds
  cases holds

section
variable {ed : Editor}

variable {rest : Text}

theorem parseExAddress_spec {base : Nat} {cmd : Text} {line : Option Nat}
    (read : parseExAddress ed base cmd = .ok (line, rest)) :
    ∃ address, cmd = address ++ rest ∧ Passed address ∧ (line = none → address = []) ∧
      ∀ tail, Stops opensAddress tail →
        parseExAddress ed base (address ++ tail) = .ok (line, tail) := by
  rw [parseExAddress] at read
  cases raw : parseExAddressRaw ed base cmd with
  | error e =>
      rw [raw] at read
      cases read
  | ok found =>
      obtain ⟨line', rest'⟩ := found
      rw [raw] at read
      cases read
      obtain ⟨address, parts, reads⟩ := parseExAddressRaw_spec raw
      refine ⟨address, parts, reads.passed, ?_, fun tail stops => ?_⟩
      · intro absent
        exact reads.absent (Option.map_eq_none_iff.1 absent)
      · rw [parseExAddress, reads.again tail stops]
        rfl

/-- The second address, whatever follows it. -/
theorem rangeEnd_spec {lo hi : Nat} {text : Text} (read : rangeEnd ed lo text = .ok (hi, rest)) :
    ∃ more, text = more ++ rest ∧ Passed more ∧
      (more = [] → rest.head? ≠ some ',' ∧ rest.head? ≠ some ';') ∧
      (∀ c, more.head? = some c → c = ',' ∨ c = ';') ∧
      ∀ tail, Stops isRangeChar tail → rangeEnd ed lo (more ++ tail) = .ok (hi, tail) := by
  have none_more {tail : Text} (comma : tail.head? ≠ some ',') (semi : tail.head? ≠ some ';') :
      rangeEnd ed lo tail = .ok (lo, tail) := by
    cases tail with
    | nil => rfl
    | cons c tail =>
        rw [List.head?_cons, ne_eq, Option.some.injEq] at comma semi
        exact if_neg (not_or.2 ⟨comma, semi⟩)
  have single (same : lo = hi) (rest_eq : text = rest) (comma : text.head? ≠ some ',')
      (semi : text.head? ≠ some ';') : ∃ more, text = more ++ rest ∧ Passed more ∧
        (more = [] → rest.head? ≠ some ',' ∧ rest.head? ≠ some ';') ∧
        (∀ c, more.head? = some c → c = ',' ∨ c = ';') ∧
        ∀ tail, Stops isRangeChar tail → rangeEnd ed lo (more ++ tail) = .ok (hi, tail) := by
    refine ⟨[], rest_eq, .nil, fun _ => ⟨rest_eq ▸ comma, rest_eq ▸ semi⟩,
      (fun _ absent => absurd absent (Option.some_ne_none _).symm), ?_⟩
    intro tail stops
    rw [List.nil_append, none_more (stops.head_ne rfl) (stops.head_ne rfl), same]
  cases text with
  | nil =>
      cases read
      exact single rfl rfl (Option.some_ne_none _).symm (Option.some_ne_none _).symm
  | cons c text =>
      by_cases sep : c = ',' ∨ c = ';'
      · rw [rangeEnd, if_pos sep] at read
        cases second : parseExAddress ed (if c = ';' then lo else ed.cursorLine) text with
        | error e =>
            rw [second] at read
            cases read
        | ok found =>
            obtain ⟨line, rest'⟩ := found
            rw [second] at read
            cases read
            obtain ⟨address, parts, passed, -, again⟩ := parseExAddress_spec second
            have address_char : isAddressChar c = true := by
              rcases sep with rfl | rfl <;> rfl
            refine ⟨c :: address, ?_, (Passed.char address_char).append passed,
              fun empty => absurd empty (List.cons_ne_nil _ _), ?_, ?_⟩
            · rw [List.cons_append, ← parts]
            · rintro _ ⟨⟩
              exact sep
            · intro tail stops
              rw [List.cons_append, rangeEnd, if_pos sep, again tail stops.opensAddress]
              rfl
      · rw [rangeEnd, if_neg sep] at read
        cases read
        refine single rfl rfl ?_ ?_
        · rintro ⟨⟩
          exact sep (Or.inl rfl)
        · rintro ⟨⟩
          exact sep (Or.inr rfl)

theorem parseExRange_stops {tail : Text} (stops : Stops isRangeChar tail) :
    parseExRange ed tail = .ok (⟨ed.cursorLine, ed.cursorLine, false⟩, tail) := by
  have nothing : parseExAddress ed ed.cursorLine tail = .ok (none, tail) := by
    rw [parseExAddress, parseExAddressRaw_stops stops.opensAddress]
    rfl
  rw [parseExRange]
  simp only [nothing, Except.bind]
  rw [if_neg (stops.head_ne rfl)]
  exact if_pos ⟨trivial, stops.head_ne rfl, stops.head_ne rfl⟩

/-- **A range that has been read is read again before whatever else cannot go on with it**, and the
splitter passes over it. -/
theorem parseExRange_spec {cmd : Text} {range : ExRange}
    (read : parseExRange ed cmd = .ok (range, rest)) :
    ∃ text, cmd = text ++ rest ∧ ReadsRange ed range text := by
  rw [parseExRange] at read
  simp only at read
  split at read
  · next whole =>
      cases read
      obtain ⟨rest, rfl⟩ := List.head?_eq_some_iff.1 whole
      exact ⟨['%'], rfl, .char rfl, fun tail _ => rfl⟩
  · next other =>
      cases first : parseExAddress ed ed.cursorLine cmd with
      | error e =>
          rw [first] at read
          cases read
      | ok found =>
          obtain ⟨line, rest'⟩ := found
          rw [first] at read
          simp only [Except.bind] at read
          obtain ⟨address, parts, passed, absent, again⟩ := parseExAddress_spec first
          split at read
          · cases read
            exact ⟨[], rfl, .nil, fun tail stops => parseExRange_stops stops⟩
          · next some_range =>
              cases second : rangeEnd ed (line.getD ed.cursorLine) rest' with
              | error e =>
                  rw [second] at read
                  cases read
              | ok found =>
                  obtain ⟨hi, rest''⟩ := found
                  rw [second] at read
                  simp only at read
                  split at read
                  · cases read
                  · next ordered =>
                      cases read
                      obtain ⟨more, parts', passed', single, sep, again'⟩ := rangeEnd_spec second
                      have no_line (empty : address = []) : line = none := by
                        have reads := again [] (.nil _)
                        rw [empty, List.nil_append, parseExAddress] at reads
                        cases reads
                        rfl
                      -- Without a first address there is a separator.
                      have some_sep (missing : line = none) : more ≠ [] := by
                        rintro rfl
                        rw [List.nil_append] at parts'
                        subst parts'
                        exact some_range ⟨missing, single rfl⟩
                      subst parts parts'
                      refine ⟨address ++ more, (List.append_assoc _ _ _).symm, passed.append passed', ?_⟩
                      intro tail stops
                      have opens : Stops opensAddress (more ++ tail) := by
                        cases more with
                        | nil => exact stops.opensAddress
                        | cons c more =>
                            rcases sep c rfl with rfl | rfl <;> exact .cons rfl _
                      have not_whole : (address ++ (more ++ tail)).head? ≠ some '%' := by
                        cases address with
                        | cons c address => exact other
                        | nil =>
                            cases more with
                            | nil => exact absurd rfl (some_sep (no_line rfl))
                            | cons c more =>
                                rcases sep c rfl with rfl | rfl <;> simp
                      have ranged : ¬ (line = none ∧ (more ++ tail).head? ≠ some ',' ∧
                          (more ++ tail).head? ≠ some ';') := by
                        rintro ⟨missing, comma, semi⟩
                        cases more with
                        | nil => exact some_sep missing rfl
                        | cons c more =>
                            rcases sep c rfl with rfl | rfl
                            · exact comma rfl
                            · exact semi rfl
                      rw [List.append_assoc, parseExRange]
                      simp only [again _ opens, Except.bind]
                      rw [if_neg not_whole, if_neg ranged, again' tail stops]
                      exact if_neg ordered

end

/-! ### White space -/

/-- A blank, to the splitter. -/
def isBlank (c : Char) : Bool := c == ' ' || c == '\t'

theorem trimStart_append {rest : Text} (white : ∀ c ∈ lead, isWhitespace c = true)
    (stops : Stops isWhitespace rest) : trimStart (lead ++ rest) = rest := by
  rw [trimStart, List.dropWhile_append_of_pos white]
  cases rest with
  | nil => rfl
  | cons c rest => exact List.dropWhile_cons_of_neg (Bool.eq_false_iff.1 (stops c rfl))

/-- The white space in front, and what it stops at. -/
theorem trimStart_parts (s : Text) : ∃ lead, s = lead ++ trimStart s ∧
    (∀ c ∈ lead, isWhitespace c = true) ∧ Stops isWhitespace (trimStart s) := by
  refine ⟨s.takeWhile isWhitespace, List.takeWhile_append_dropWhile.symm, ?_, ?_⟩
  · exact fun c member => List.mem_takeWhile_imp member
  · intro c here
    have first := List.head?_dropWhile_not isWhitespace s
    rw [trimStart] at here
    rw [here] at first
    exact Bool.eq_false_iff.2 (by simpa using first)

theorem trimEnd_parts (s : Text) : ∃ trail, s = trimEnd s ++ trail ∧
    (∀ c ∈ trail, isWhitespace c = true) := by
  refine ⟨s.rtakeWhile isWhitespace, ?_, fun c member => List.mem_rtakeWhile_imp member⟩
  exact (List.rdropWhile_append_rtakeWhile ..).symm

/-- Only white space is trimmed off the end. -/
theorem trimExArgs_parts (s : Text) : ∃ trail, trimStart s = trimExArgs s ++ trail ∧
    (∀ c ∈ trail, isWhitespace c = true) := by
  obtain ⟨trail, parts, white⟩ := trimEnd_parts (trimStart s)
  rw [trimExArgs]
  generalize trimEnd (trimStart s) = trimmed at parts ⊢
  split
  · refine ⟨trail.drop 1, ?_, fun c member => white c (List.mem_of_mem_drop member)⟩
    rw [parts, List.drop_left, List.append_assoc, List.take_append_drop]
  · exact ⟨trail, parts, white⟩

/-! ### The name -/

/-- Where the dispatch finds a command's name: behind the range, and the white space about it. -/
def nameAt (ed : Editor) (line : Text) : Option Nat :=
  match parseExRange ed (trimExArgs line) with
  | .error _ => none
  | .ok (_, rest) =>
      if trimStart rest = [] then none
      else
        some (size line - size (trimStart line) + (size (trimExArgs line) - size (trimStart rest)))

/-- A character the splitter takes for an address's. -/
def scansOn (c : Char) : Bool := isAddressChar c || c == '\'' || c == '/' || c == '?'

/-- A line whose range stands between blanks, before a name. -/
def PlainLine (ed : Editor) (line : Text) : Prop :=
  ∃ lead range gap name : Text, line = lead ++ (range ++ (gap ++ name)) ∧
    (∀ c ∈ lead, isBlank c = true) ∧ (∀ c ∈ gap, isBlank c = true) ∧
    (∃ read, parseExRange ed range = .ok (read, [])) ∧
    name ≠ [] ∧ Stops (fun c => isWhitespace c || scansOn c) name

theorem isWhitespace_of_isBlank (blank : isBlank c = true) : isWhitespace c = true := by
  simp only [isBlank, Bool.or_eq_true, beq_iff_eq] at blank
  rcases blank with rfl | rfl <;> rfl

theorem isAddressChar_of_isBlank (blank : isBlank c = true) : isAddressChar c = true := by
  simp only [isBlank, Bool.or_eq_true, beq_iff_eq] at blank
  rcases blank with rfl | rfl <;> rfl

theorem scansOn_lt (scans : scansOn c = true) : c.toNat < 128 := by
  simp only [scansOn, Bool.or_eq_true, beq_iff_eq] at scans
  rcases scans with ((address | rfl) | rfl) | rfl
  · exact ascii_of_isAddressChar address
  all_goals decide

/-- Of the white space only the blanks are scanned over. -/
theorem isBlank_of_scansOn (scans : scansOn c = true) (white : isWhitespace c = true) :
    isBlank c = true := by
  have codes : ∀ n < 128, scansOn (Char.ofNat n) = true → isWhitespace (Char.ofNat n) = true →
      isBlank (Char.ofNat n) = true := by decide
  have here := codes c.toNat (scansOn_lt scans)
  rw [Char.ofNat_toNat] at here
  exact here scans white

theorem isRangeChar_scansOn (range : isRangeChar c = true) : scansOn c = true := by
  simp only [isRangeChar, ExLine.opensAddress, isOffsetChar, Bool.or_eq_true, beq_iff_eq] at range
  rcases range with (((((((digit | rfl) | rfl) | rfl) | rfl) | rfl) | rfl) | rfl) | rfl
  · rw [scansOn, isAddressChar_of_isDigit digit]
    rfl
  all_goals rfl

theorem addresses_stops (stops : Stops scansOn text) : addresses .between text = some [] := by
  cases text with
  | nil => rfl
  | cons c text =>
      have other := stops c rfl
      simp only [scansOn, Bool.or_eq_false_iff, beq_eq_false_iff_ne] at other
      rw [addresses, other.1.1.1, if_neg Bool.false_ne_true, if_neg other.1.1.2,
        if_neg (not_or.2 ⟨other.1.2, other.2⟩)]

theorem stops_of_addresses (stopped : addresses .between text = some []) :
    Stops scansOn text := by
  rintro c here
  obtain ⟨text, rfl⟩ := List.head?_eq_some_iff.1 here
  rw [addresses] at stopped
  rw [Bool.eq_false_iff]
  intro scans
  have grows {found : Option Text} (same : found.map (c :: ·) = some []) : False := by
    obtain ⟨_, -, absurd⟩ := Option.map_eq_some_iff.1 same
    cases absurd
  simp only [scansOn, Bool.or_eq_true, beq_iff_eq] at scans
  split at stopped
  · exact grows stopped
  · split at stopped
    · exact grows stopped
    · split at stopped
      · exact grows stopped
      · next address quote slash =>
          rcases scans with ((scans | scans) | scans) | scans
          · exact address scans
          · exact quote scans
          · exact slash (Or.inl scans)
          · exact slash (Or.inr scans)

/-- Of white space, the splitter passes over blanks only. -/
theorem blank_of_addresses {white rest : Text} (all : ∀ c ∈ white, isWhitespace c = true)
    (found : addresses .between (white ++ rest) = some (white ++ front)) :
    ∀ c ∈ white, isBlank c = true := by
  induction white with
  | nil => exact nofun
  | cons c white ih =>
      rw [List.forall_mem_cons] at all ⊢
      have scans : scansOn c = true := by
        by_contra other
        have stopped := addresses_stops (Stops.cons (Bool.eq_false_iff.2 other) (white ++ rest))
        rw [List.cons_append, stopped] at found
        cases found
      have blank := isBlank_of_scansOn scans all.1
      rw [List.cons_append, addresses, if_pos (isAddressChar_of_isBlank blank)] at found
      obtain ⟨front', found', same⟩ := Option.map_eq_some_iff.1 found
      obtain rfl := (List.cons_eq_cons.1 same).2
      exact ⟨blank, ih all.2 found'⟩

/-- Where a name is found: the line's pieces. -/
theorem nameAt_eq_some {line : Text} (found : nameAt ed line = some pos) :
    ∃ lead range gap name : Text, line = lead ++ (range ++ (gap ++ name)) ∧
      (∀ c ∈ lead, isWhitespace c = true) ∧ (∀ c ∈ gap, isWhitespace c = true) ∧
      (∃ read, ReadsRange ed read range) ∧ name ≠ [] ∧ Stops isWhitespace name ∧
      pos = size (lead ++ (range ++ gap)) := by
  rw [nameAt] at found
  cases read : parseExRange ed (trimExArgs line) with
  | error e =>
      rw [read] at found
      cases found
  | ok parsed =>
      obtain ⟨r, rest⟩ := parsed
      rw [read] at found
      simp only at found
      split at found
      · cases found
      · next some_name =>
          obtain ⟨lead, outer, white, -⟩ := trimStart_parts line
          obtain ⟨trail, trimmed, -⟩ := trimExArgs_parts line
          obtain ⟨range, ranged, reads⟩ := parseExRange_spec read
          obtain ⟨gap, inner, white', stops⟩ := trimStart_parts rest
          have whole : line = lead ++ (range ++ (gap ++ (trimStart rest ++ trail))) := by
            rw [outer, trimmed, ranged]
            conv_lhs => rw [inner]
            simp only [List.append_assoc]
          refine ⟨lead, range, gap, trimStart rest ++ trail, whole, white, white', ⟨r, reads⟩, ?_, ?_,
            ?_⟩
          · exact fun empty => some_name (List.append_eq_nil_iff.1 empty).1
          · intro c here
            apply stops c
            cases name : trimStart rest with
            | nil => exact absurd name some_name
            | cons c' name =>
                rw [name] at here
                exact here
          · have first := congrArg size outer
            have second := congrArg size ranged
            have third := congrArg size inner
            rw [size_append] at first second third
            rw [← Option.some.inj found, size_append, size_append]
            omega

theorem Passed.cancel {found : Text} (passed : Passed front)
    (scanned : addresses .between (front ++ text) = some (front ++ found)) :
    addresses .between text = some found := by
  rw [passed.passes] at scanned
  obtain ⟨found', inner, same⟩ := Option.map_eq_some_iff.1 scanned
  rwa [← List.append_cancel_left same]

theorem Passed.blanks (blank : ∀ c ∈ text, isBlank c = true) : Passed text :=
  .chars fun c member => isAddressChar_of_isBlank (blank c member)

theorem isRangeChar_of_isWhitespace (white : isWhitespace c = true) : isRangeChar c = false := by
  have codes : ∀ n < 128, isWhitespace (Char.ofNat n) = true → isRangeChar (Char.ofNat n) = false := by
    decide
  rw [Bool.eq_false_iff]
  intro range
  have here := codes c.toNat (scansOn_lt (isRangeChar_scansOn range))
  rw [Char.ofNat_toNat, range] at here
  cases here white

/-- What is trimmed off the end of a text leaves its name. -/
theorem exists_trimmed {cmd trail : Text} (parts : front ++ name = cmd ++ trail)
    (white : ∀ c ∈ trail, isWhitespace c = true) (some_name : name ≠ [])
    (stops : Stops isWhitespace name) :
    ∃ name', cmd = front ++ name' ∧ name = name' ++ trail ∧ name' ≠ [] := by
  obtain ⟨c, rest, rfl⟩ := List.exists_cons_of_ne_nil some_name
  have first : c ∉ trail := fun member => by
    have here := white c member
    rw [stops c rfl] at here
    cases here
  rcases List.append_eq_append_iff.1 parts with ⟨name', rfl, same⟩ | ⟨more, -, same⟩
  · refine ⟨name', rfl, same, ?_⟩
    rintro rfl
    rw [List.nil_append] at same
    exact first (same ▸ List.mem_cons_self)
  · exact absurd (same ▸ List.mem_append_right _ List.mem_cons_self) first

theorem Stops.of_append (stops : Stops p (front ++ back)) (some_front : front ≠ []) :
    Stops p front := by
  obtain ⟨c, rest, rfl⟩ := List.exists_cons_of_ne_nil some_front
  exact .cons (stops c rfl) rest

theorem Stops.append (first : ∀ c ∈ front, p c = false) (stops : Stops p back) :
    Stops p (front ++ back) := by
  cases front with
  | nil => exact stops
  | cons c front => exact .cons (first c List.mem_cons_self) _

/-- What the dispatch reads off a line: its range, and the command behind the white space. -/
structure ReadsCommand (ed : Editor) (line : Text) (r : ExRange) (name name' trail : Text) : Prop where
  parts : name = name' ++ trail
  white : ∀ c ∈ trail, isWhitespace c = true
  some_name : name' ≠ []
  /-- Of the line as it is. -/
  untrimmed : ∃ rest, parseExRange ed (trimStart line) = .ok (r, rest) ∧ trimStart rest = name
  /-- Of the trimmed line. -/
  trimmed : ∃ rest, parseExRange ed (trimExArgs line) = .ok (r, rest) ∧ trimStart rest = name'
  start : size line - size (trimStart line) + (size (trimExArgs line) - size name') + size name =
    size line

theorem ReadsCommand.of_parts (ed : Editor) (front gap : Text) {r : ExRange}
    (lead_white : ∀ c ∈ lead, isWhitespace c = true)
    (gap_white : ∀ c ∈ gap, isWhitespace c = true)
    (head : Stops isWhitespace (front ++ (gap ++ name))) (some_name : name ≠ [])
    (stops : Stops isWhitespace name) (read : ∀ name', Stops isRangeChar name' →
      parseExRange ed (front ++ (gap ++ name')) = .ok (r, gap ++ name'))
    (stops' : Stops isRangeChar name) :
    ∃ name' trail, ReadsCommand ed (lead ++ (front ++ (gap ++ name))) r name name' trail := by
  have start := trimStart_append lead_white head
  obtain ⟨trail, parts, white⟩ := trimExArgs_parts (lead ++ (front ++ (gap ++ name)))
  rw [start, ← List.append_assoc] at parts
  obtain ⟨name', trimmed, rfl, some_name'⟩ := exists_trimmed parts white some_name stops
  have stops'' : Stops isWhitespace name' := stops.of_append some_name'
  simp only [List.append_assoc] at trimmed
  refine ⟨name', trail, rfl, white, some_name', ?_, ?_, ?_⟩
  · rw [start]
    exact ⟨_, read _ stops', trimStart_append gap_white stops⟩
  · rw [trimmed]
    exact ⟨_, read _ (stops'.of_append some_name'), trimStart_append gap_white stops''⟩
  · rw [start, trimmed]
    simp only [size_append]
    omega

/-- **A range between white space and a name is read, and the name behind it.** -/
theorem readsCommand_of_range {range gap : Text} (lead_white : ∀ c ∈ lead, isWhitespace c = true)
    (gap_white : ∀ c ∈ gap, isWhitespace c = true)
    (read : ∃ r, parseExRange ed range = .ok (r, [])) (some_name : name ≠ [])
    (stops : Stops isWhitespace name) (stops' : Stops isRangeChar name) :
    ∃ r name' trail, ReadsCommand ed (lead ++ (range ++ (gap ++ name))) r name name' trail := by
  obtain ⟨r, read⟩ := read
  by_cases none_read : range = []
  · subst none_read
    have white : ∀ c ∈ lead ++ gap, isWhitespace c = true := by
      rw [List.forall_mem_append]
      exact ⟨lead_white, gap_white⟩
    obtain ⟨name', trail, reads⟩ := ReadsCommand.of_parts ed [] []
      (r := ⟨ed.cursorLine, ed.cursorLine, false⟩) white nofun stops some_name stops
      (fun name' stops' => parseExRange_stops stops') stops'
    refine ⟨⟨ed.cursorLine, ed.cursorLine, false⟩, name', trail, ?_⟩
    simpa only [List.append_assoc, List.nil_append] using reads
  · -- A range starts with no white space.
    have head : Stops isWhitespace (range ++ (gap ++ name)) := by
      obtain ⟨c, rest, rfl⟩ := List.exists_cons_of_ne_nil none_read
      refine .cons ?_ _
      rw [Bool.eq_false_iff]
      intro white
      rw [parseExRange_stops (.cons (isRangeChar_of_isWhitespace white) rest)] at read
      cases read
    obtain ⟨range', same, reads⟩ := parseExRange_spec read
    rw [List.append_nil] at same
    subst same
    obtain ⟨name', trail, reads⟩ := ReadsCommand.of_parts ed range gap lead_white gap_white head some_name stops
      (fun name' stops' => reads.again _ (.append
        (fun c member => isRangeChar_of_isWhitespace (gap_white c member)) stops')) stops'
    exact ⟨r, name', trail, reads⟩

/-- Where the dispatch finds the name of a plain line. -/
theorem nameAt_plain {range gap : Text} (lead_blank : ∀ c ∈ lead, isBlank c = true)
    (gap_blank : ∀ c ∈ gap, isBlank c = true)
    (read : ∃ read, parseExRange ed range = .ok (read, [])) (some_name : name ≠ [])
    (stops : Stops (fun c => isWhitespace c || scansOn c) name)
    (found : nameAt ed (lead ++ (range ++ (gap ++ name))) = some pos) :
    pos = size (lead ++ (range ++ gap)) := by
  have name_white : Stops isWhitespace name := stops.mono fun c white => by rw [white]; rfl
  have name_range : Stops isRangeChar name := stops.mono fun c range => by
    rw [isRangeChar_scansOn range, Bool.or_true]
  obtain ⟨r, name', trail, reads⟩ := readsCommand_of_range
    (fun c member => isWhitespace_of_isBlank (lead_blank c member))
    (fun c member => isWhitespace_of_isBlank (gap_blank c member)) read some_name name_white name_range
  obtain ⟨rest, parsed, behind⟩ := reads.trimmed
  have start := reads.start
  rw [nameAt, parsed] at found
  simp only [behind, if_neg reads.some_name] at found
  rw [Option.some.inj found] at start
  simp only [size_append] at start ⊢
  omega

/-- **The splitter takes the name to start where the dispatch finds it exactly on a plain line.** -/
theorem nameStart_iff {line : Text} (found : nameAt ed line = some pos) :
    exNameStart line = pos ↔ PlainLine ed line := by
  have ends := addresses_end .between line
  constructor
  · rintro rfl
    obtain ⟨lead, range, gap, name, rfl, white, white', ⟨read, reads⟩, some_name, stops, pos⟩ :=
      nameAt_eq_some found
    have whole : cut (lead ++ (range ++ (gap ++ name))) (size (lead ++ (range ++ gap))) =
        some (lead ++ (range ++ gap), name) := by
      have parts := cut_append (lead ++ (range ++ gap)) name
      simpa only [List.append_assoc] using parts
    cases scanned : addresses .between (lead ++ (range ++ (gap ++ name))) with
    | none =>
        rw [scanned] at ends
        obtain ⟨front, c, back, same, after, before⟩ := ends
        rw [← pos, exNameStart, same, cut_inside (same ▸ after) (same ▸ before)] at whole
        cases whole
    | some front =>
        rw [scanned] at ends
        obtain ⟨⟨back, same⟩, length⟩ := ends
        have parts := cut_append front back
        rw [same, ← length] at parts
        rw [← pos, exNameStart, parts] at whole
        cases whole
        have blank := blank_of_addresses white scanned
        have rest := reads.passed.cancel ((Passed.blanks blank).cancel scanned)
        rw [← List.append_nil gap] at rest
        rw [List.append_assoc, List.nil_append] at rest
        have blank' := blank_of_addresses white' rest
        have stopped := (Passed.blanks blank').cancel rest
        refine ⟨lead, range, gap, name, rfl, blank, blank', ⟨read, ?_⟩, some_name, ?_⟩
        · simpa only [List.append_nil] using reads.again [] (.nil _)
        · intro c here
          simp only [stops c here, stops_of_addresses stopped c here]
          rfl
  · rintro ⟨lead, range, gap, name, rfl, blank, blank', ⟨r, read⟩, some_name, stops⟩
    rw [nameAt_plain blank blank' ⟨r, read⟩ some_name stops found]
    obtain ⟨range', same, reads⟩ := parseExRange_spec read
    rw [List.append_nil] at same
    subst same
    have stopped : addresses .between name = some [] := addresses_stops <|
      stops.mono fun c scans => by rw [scans, Bool.or_true]
    rw [(Passed.blanks blank).passes, reads.passed.passes, (Passed.blanks blank').passes, stopped] at ends
    have length := ends.2
    simp only [List.append_nil] at length
    exact length

end Bemtvi.Core.ExLine
