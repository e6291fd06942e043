/-
Module: Bemtvi.Lib.Text
Purpose: Text addressed by UTF-8 byte offsets.  A text is its characters; an offset that does not
  fall between two of them names no place.  Lines end at `\n`, `\r\n` and a lone `\r`, and an
  offset between the two halves of `\r\n` still lies on the line they end.  With the white space around a text.
Trusted boundary: human-reviewed spec
Main exports: Text, size, cut, splice, within, walk, point, lineStart, cut_eq_some, splice_eq_some,
  point_append, lineStart_point, isCharBoundary, isWhitespace, trim
-/
import Mathlib

namespace Bemtvi.Utf8

/-- A text is its characters. -/
abbrev Text := List Char

/-- Length in UTF-8 bytes. -/
def size : Text → Nat
  | [] => 0
  | c :: text => c.utf8Size + size text

@[simp] theorem size_nil : size [] = 0 := rfl

@[simp] theorem size_cons (c : Char) (text : Text) : size (c :: text) = c.utf8Size + size text := rfl

@[simp] theorem size_append (front back : Text) : size (front ++ back) = size front + size back := by
  induction front with
  | nil => simp
  | cons c front ih => rw [List.cons_append, size_cons, size_cons, ih, Nat.add_assoc]

@[simp] theorem size_eq_zero {text : Text} : size text = 0 ↔ text = [] := by
  cases text with
  | nil => simp
  | cons c text =>
      have positive := c.utf8Size_pos
      simp only [size_cons, List.cons_ne_nil, iff_false]
      omega

/-- Split a text at a byte offset; `none` past its end or inside a character. -/
def cut : Text → Nat → Option (Text × Text)
  | text, 0 => some ([], text)
  | [], _ + 1 => none
  | c :: text, byte + 1 =>
      if c.utf8Size ≤ byte + 1 then
        match cut text (byte + 1 - c.utf8Size) with
        | some (front, back) => some (c :: front, back)
        | none => none
      else none

variable {front text : Text} {bytes : Nat}

/-- A cut names the one way to split the text at that offset. -/
theorem cut_eq_some {back : Text} {byte : Nat} :
    cut text byte = some (front, back) ↔ text = front ++ back ∧ size front = byte := by
  induction text generalizing byte front with
  | nil =>
      cases byte with
      | zero =>
          simp only [cut, Option.some.injEq, Prod.mk.injEq, size_eq_zero]
          constructor
          · rintro ⟨rfl, rfl⟩
            exact ⟨rfl, rfl⟩
          · rintro ⟨same, rfl⟩
            exact ⟨rfl, same⟩
      | succ byte =>
          constructor
          · intro absent
            cases absent
          · rintro ⟨same, length⟩
            rw [(List.append_eq_nil_iff.1 same.symm).1] at length
            cases length
  | cons c text ih =>
      cases byte with
      | zero =>
          simp only [cut, Option.some.injEq, Prod.mk.injEq, size_eq_zero]
          constructor
          · rintro ⟨rfl, rfl⟩
            exact ⟨rfl, rfl⟩
          · rintro ⟨same, rfl⟩
            exact ⟨rfl, same⟩
      | succ byte =>
          have positive := c.utf8Size_pos
          rw [cut]
          by_cases fits : c.utf8Size ≤ byte + 1
          · rw [if_pos fits]
            constructor
            · intro found
              split at found
              · next front' back' inner =>
                  cases found
                  rcases ih.1 inner with ⟨rfl, length⟩
                  exact ⟨rfl, by rw [size_cons, length]; omega⟩
              · cases found
            · rintro ⟨same, length⟩
              cases front with
              | nil => simp at length
              | cons c' front =>
                  rcases List.cons_eq_cons.1 same with ⟨rfl, rest⟩
                  rw [size_cons] at length
                  rw [ih.2 ⟨rest, by omega⟩]
          · rw [if_neg fits]
            constructor
            · intro absent
              cases absent
            · rintro ⟨same, length⟩
              cases front with
              | nil => simp at length
              | cons c' front =>
                  rcases List.cons_eq_cons.1 same with ⟨rfl, -⟩
                  rw [size_cons] at length
                  omega

theorem cut_append (front back : Text) : cut (front ++ back) (size front) = some (front, back) :=
  cut_eq_some.2 ⟨rfl, rfl⟩

/-- Replace the bytes from `start` to `stop` by `new`. -/
def splice (text : Text) (start stop : Nat) (new : Text) : Option Text :=
  if start ≤ stop then
    match cut text start with
    | some (front, rest) =>
        match cut rest (stop - start) with
        | some (_, back) => some (front ++ new ++ back)
        | none => none
    | none => none
  else none

/-- What a splice takes out and leaves. -/
theorem splice_eq_some {new text' : Text} {start stop : Nat} :
    splice text start stop new = some text' ↔
      ∃ front old back, text = front ++ old ++ back ∧ size front = start ∧
        size front + size old = stop ∧ text' = front ++ new ++ back := by
  unfold splice
  constructor
  · intro spliced
    split at spliced
    · next ordered =>
        split at spliced
        · next front rest first =>
            split at spliced
            · next old back second =>
                cases spliced
                rcases cut_eq_some.1 first with ⟨rfl, length⟩
                rcases cut_eq_some.1 second with ⟨rfl, length'⟩
                exact ⟨front, old, back, (List.append_assoc _ _ _).symm, length, by omega, rfl⟩
            · cases spliced
        · cases spliced
    · cases spliced
  · rintro ⟨front, old, back, rfl, rfl, rfl, rfl⟩
    rw [if_pos (Nat.le_add_right _ _), List.append_assoc, cut_append]
    simp only [Nat.add_sub_cancel_left, cut_append]

theorem splice_append (front old back new : Text) :
    splice (front ++ old ++ back) (size front) (size front + size old) new =
      some (front ++ new ++ back) :=
  splice_eq_some.2 ⟨front, old, back, rfl, rfl, rfl, rfl⟩

/-- The longest front of a text within so many bytes: what `floor_char_boundary` cuts off. -/
def within : Text → Nat → Text
  | [], _ => []
  | c :: text, bytes =>
      if c.utf8Size ≤ bytes then c :: within text (bytes - c.utf8Size) else []

theorem within_front (text : Text) (bytes : Nat) : within text bytes <+: text := by
  induction text generalizing bytes with
  | nil => exact List.prefix_rfl
  | cons c text ih =>
      rw [within]
      split
      · exact List.prefix_cons_inj c |>.2 (ih _)
      · exact List.nil_prefix

/-- A front is cut off by its own size. -/
theorem within_append (front back : Text) (bytes : Nat) :
    within (front ++ back) (size front + bytes) = front ++ within back bytes := by
  induction front with
  | nil => rw [List.nil_append, size_nil, Nat.zero_add, List.nil_append]
  | cons c front ih =>
      have fits : c.utf8Size ≤ size (c :: front) + bytes := by
        rw [size_cons]
        omega
      have rest : size (c :: front) + bytes - c.utf8Size = size front + bytes := by
        rw [size_cons]
        omega
      rw [List.cons_append, within, if_pos fits, rest, ih, List.cons_append]

@[simp] theorem within_zero (text : Text) : within text 0 = [] := by
  cases text with
  | nil => rfl
  | cons c text => exact if_neg (Nat.not_le.2 c.utf8Size_pos)

/-- Where a text is long enough, what comes behind it does not matter. -/
theorem within_append_of_le (inside : bytes ≤ size front) (back : Text) :
    within (front ++ back) bytes = within front bytes := by
  induction front generalizing bytes with
  | nil =>
      obtain rfl : bytes = 0 := by simpa using inside
      rw [List.nil_append, within_zero, within_zero]
  | cons c front ih =>
      rw [List.cons_append, within, within]
      split
      · rw [ih]
        rw [size_cons] at inside
        omega
      · rfl

theorem within_of_size_le (long : size text ≤ bytes) : within text bytes = text := by
  obtain ⟨more, rfl⟩ := Nat.exists_eq_add_of_le long
  have whole := within_append text [] more
  rw [List.append_nil] at whole
  exact whole.trans (List.append_nil text)

/-- At a character's start nothing is left out. -/
theorem within_of_cut {back : Text} (here : cut text bytes = some (front, back)) :
    within text bytes = front := by
  obtain ⟨rfl, rfl⟩ := cut_eq_some.1 here
  have whole := within_append front back 0
  rw [Nat.add_zero, within_zero, List.append_nil] at whole
  exact whole

/-! ### Lines -/

/-- Whether a line ends after `c`, when `next` follows it. -/
def breaks (c : Char) (next : Option Char) : Bool :=
  c == '\n' || (c == '\r' && next != some '\n')

/-- A place in a text: its row, and its byte column in the row. -/
abbrev Point := Nat × Nat

/-- The place after `c`, when `next` follows it. -/
def advance (place : Point) (c : Char) (next : Option Char) : Point :=
  if breaks c next then (place.1 + 1, 0) else (place.1, place.2 + c.utf8Size)

/-- The place after a whole text, when `after` follows it. -/
@[grind =]
def walk (place : Point) : Text → Option Char → Point
  | [], _ => place
  | c :: text, after => walk (advance place c (text.head?.or after)) text after

/-- The place of a byte offset. -/
@[grind =]
def pointFrom (place : Point) : Text → Nat → Point
  | [], byte => (place.1, place.2 + byte)
  | c :: text, byte =>
      if byte < c.utf8Size then (place.1, place.2 + byte)
      else pointFrom (advance place c text.head?) text (byte - c.utf8Size)

/-- The row and byte column of a byte offset. -/
def point (text : Text) (byte : Nat) : Point := pointFrom (0, 0) text byte

/-- The byte offset at which a row starts. -/
@[grind =]
def lineStart : Text → Nat → Nat
  | _, 0 => 0
  | [], _ + 1 => 0
  | c :: text, row + 1 =>
      c.utf8Size + lineStart text (if breaks c text.head? then row else row + 1)

/-- The lines, each with its break; the last is what follows the last break. -/
def lines : Text → List Text
  | [] => [[]]
  | c :: text =>
      if breaks c text.head? then [c] :: lines text
      else
        match lines text with
        | line :: rest => (c :: line) :: rest
        | [] => [[c]]

theorem pointFrom_append (place : Point) (front back : Text) :
    pointFrom place (front ++ back) (size front) = walk place front back.head? := by
  induction front generalizing place with
  | nil =>
      cases back with
      | nil => rfl
      | cons c back =>
          rw [List.nil_append, pointFrom, if_pos (size_nil ▸ c.utf8Size_pos)]
          rfl
  | cons c front ih =>
      have inside : ¬ size (c :: front) < c.utf8Size := by
        rw [size_cons]
        omega
      rw [List.cons_append, pointFrom, if_neg inside, size_cons, Nat.add_sub_cancel_left, ih, walk]
      cases front <;> rfl

/-- **A place depends on what stands before it, and on one character after it.** -/
theorem point_append (front back : Text) :
    point (front ++ back) (size front) = walk (0, 0) front back.head? :=
  pointFrom_append (0, 0) front back

/-- The character after matters only behind a `\r`. -/
theorem walk_congr (place : Point) (front : Text) {after after' : Option Char}
    (same : front.getLast? = some '\r' → (after = some '\n' ↔ after' = some '\n')) :
    walk place front after = walk place front after' := by
  induction front generalizing place with
  | nil => rfl
  | cons c front ih =>
      cases front with
      | nil =>
          simp only [walk, List.head?_nil, Option.none_or, advance, breaks]
          by_cases carriage : c = '\r'
          · subst carriage
            have iff := same rfl
            by_cases joins : after = some '\n'
            · rw [joins, iff.1 joins]
            · have joins' : ¬ after' = some '\n' := fun here => joins (iff.2 here)
              simp [joins, joins']
          · simp [carriage]
      | cons c' front =>
          simp only [walk, List.head?_cons, Option.some_or]
          apply ih
          intro last
          exact same (by rw [List.getLast?_cons_cons]; exact last)

theorem walk_append (place : Point) (front back : Text) (after : Option Char) :
    walk place (front ++ back) after = walk (walk place front (back.head?.or after)) back after := by
  induction front generalizing place with
  | nil => rfl
  | cons c front ih =>
      rw [List.cons_append, walk, walk, ih]
      cases front <;> rfl

theorem advance_row (place : Point) (c : Char) (next : Option Char) :
    (advance place c next).1 = place.1 + if breaks c next then 1 else 0 := by
  unfold advance
  split <;> rfl

/-- Reading on never goes back. -/
theorem walk_forward (place : Point) (text : Text) (after : Option Char) :
    place.1 < (walk place text after).1 ∨
      (place.1 = (walk place text after).1 ∧ place.2 ≤ (walk place text after).2) := by
  induction text generalizing place with
  | nil => exact Or.inr ⟨rfl, Nat.le_refl _⟩
  | cons c text ih =>
      rw [walk]
      have rest := ih (advance place c (text.head?.or after))
      generalize walk (advance place c (text.head?.or after)) text after = last at rest ⊢
      unfold advance at rest
      split at rest <;> simp only at rest <;> omega

/-- What is put behind a text starts no earlier than the text ended, whatever followed it. -/
theorem walk_row_le (place : Point) (front : Text) {new : Text} (some_text : new ≠ [])
    (after after' : Option Char) :
    (walk place front after).1 ≤ (walk place (front ++ new) after').1 := by
  induction front generalizing place with
  | nil =>
      have onwards := walk_forward place new after'
      simp only [walk, List.nil_append]
      omega
  | cons c front ih =>
      cases front with
      | cons c' front => exact ih (advance place c (some c'))
      | nil =>
          cases new with
          | nil => exact absurd rfl some_text
          | cons d new =>
              simp only [List.cons_append, List.nil_append, walk, List.head?_nil, Option.none_or,
                List.head?_cons, Option.some_or]
              have onwards := walk_forward (advance (advance place c (some d)) d (new.head?.or after'))
                new after'
              -- A `\r` that loses its break to a new `\n` gets it back at once.
              have step : (advance place c after).1 ≤
                  (advance (advance place c (some d)) d (new.head?.or after')).1 := by
                simp only [advance_row]
                by_cases newline : d = '\n'
                · subst newline
                  have breaksHere : breaks '\n' (new.head?.or after') = true := rfl
                  rw [if_pos breaksHere]
                  split <;> omega
                · have most : breaks c after = true → breaks c (some d) = true := by
                    simp only [breaks, Bool.or_eq_true, Bool.and_eq_true, bne_iff_ne, ne_eq,
                      Option.some.injEq, newline, not_false_eq_true, and_true]
                    rintro (here | ⟨here, -⟩)
                    · exact Or.inl here
                    · exact Or.inr here
                  by_cases ends : breaks c after = true
                  · rw [if_pos ends, if_pos (most ends)]
                    omega
                  · rw [if_neg ends]
                    omega
              omega

theorem pointFrom_row_le (place : Point) (text : Text) (byte : Nat) :
    place.1 ≤ (pointFrom place text byte).1 := by
  induction text generalizing place byte with
  | nil => exact Nat.le_refl _
  | cons c text ih =>
      rw [pointFrom]
      split
      · exact Nat.le_refl _
      · refine Nat.le_trans ?_ (ih _ _)
        unfold advance
        split
        · exact Nat.le_succ _
        · exact Nat.le_refl _

/-- Counted from a place, an offset is its row's start and its column there. -/
theorem lineStart_add (place : Point) (text : Text) (byte : Nat) :
    lineStart text ((pointFrom place text byte).1 - place.1) + (pointFrom place text byte).2 =
      byte + if (pointFrom place text byte).1 = place.1 then place.2 else 0 := by
  induction text generalizing place byte with
  | nil => simp [pointFrom, lineStart, Nat.add_comm]
  | cons c text ih =>
      rw [pointFrom]
      split
      · simp [lineStart, Nat.add_comm]
      · next beyond =>
          have rest := ih (advance place c text.head?) (byte - c.utf8Size)
          have lower := pointFrom_row_le (advance place c text.head?) text (byte - c.utf8Size)
          generalize pointFrom (advance place c text.head?) text (byte - c.utf8Size) = found at *
          unfold advance at rest lower
          by_cases ends : breaks c text.head?
          · simp only [ends, if_true] at rest lower
            have later : found.1 - place.1 = (found.1 - (place.1 + 1)) + 1 := by omega
            rw [later, lineStart, if_pos ends, if_neg (by omega)]
            split at rest <;> omega
          · simp only [ends, Bool.false_eq_true, if_false] at rest lower
            rcases Nat.eq_or_lt_of_le lower with same | below
            · rw [← same] at rest ⊢
              simp only [Nat.sub_self, lineStart, if_true] at rest ⊢
              omega
            · have later : found.1 - place.1 = (found.1 - place.1 - 1) + 1 := by omega
              rw [later, lineStart, if_neg ends, ← later, if_neg (by omega)]
              rw [if_neg (by omega)] at rest
              omega

/-- An offset is its row's start and its column there. -/
theorem lineStart_point (text : Text) (byte : Nat) :
    lineStart text (point text byte).1 + (point text byte).2 = byte := by
  have whole := lineStart_add (0, 0) text byte
  simp only [Nat.sub_zero, ite_self, Nat.add_zero] at whole
  exact whole

/-- `is_char_boundary`. -/
def isCharBoundary (line : Text) (byte : Nat) : Bool := (cut line byte).isSome

/-! ### White space -/

/-- `char::is_whitespace`. -/
def isWhitespace (c : Char) : Bool :=
  let n := c.toNat
  (0x9 ≤ n && n ≤ 0xD) || n == 0x20 || n == 0x85 || n == 0xA0 || n == 0x1680 ||
    (0x2000 ≤ n && n ≤ 0x200A) || n == 0x2028 || n == 0x2029 || n == 0x202F || n == 0x205F ||
    n == 0x3000

/-- `str::trim_start`. -/
def trimStart (s : Text) : Text := s.dropWhile isWhitespace

/-- `str::trim_end`. -/
def trimEnd (s : Text) : Text := s.rdropWhile isWhitespace

/-- `str::trim`. -/
def trim (s : Text) : Text := trimEnd (trimStart s)

end Bemtvi.Utf8
