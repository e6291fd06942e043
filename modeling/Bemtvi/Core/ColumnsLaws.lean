/-
Module: Bemtvi.Core.ColumnsLaws
Purpose: The column of a byte is what the graphemes ending by it take, by the walk over the line, by its
  shortcut over printable ASCII and by the mapper, whatever was asked before; it grows with the byte.
  The byte of a column starts the first grapheme that holds the column.
Trusted boundary: human-reviewed spec of the segmentation and width crates, in `LawfulSegmenter`
Main exports: LawfulSegmenter, floorGrapheme_eq, virtcol_eq, virtcol_mono, answers_eq, Cell, cells,
  byteAtVirtcol_eq, columns_agree
-/
import Bemtvi.Core.Columns

namespace Bemtvi.Core.Columns

open Utf8 Clusters

/-- A printable ASCII character. -/
def Printable (c : Char) : Prop := 0x20 ≤ c.toNat ∧ c.toNat < 0x7f

instance : DecidablePred Printable := fun _ => inferInstanceAs (Decidable (_ ∧ _))

/-- What segmentation and widths are relied on for: the clusters are the text, cutting between two of
them changes none of those before, two ASCII characters are apart unless they are a CRLF, and a
printable ASCII character takes one cell. -/
class LawfulSegmenter [Segmenter] : Prop where
  join : ∀ line : Text, (Segmenter.graphemes line).flatten = line
  nonempty : ∀ line : Text, [] ∉ Segmenter.graphemes line
  front : ∀ (line : Text) (k : Nat),
    Segmenter.graphemes ((Segmenter.graphemes line).take k).flatten =
      (Segmenter.graphemes line).take k
  ascii : ∀ (front : Text) (a b : Char) (back : Text), a.toNat < 128 → b.toNat < 128 →
    ¬ (a = '\r' ∧ b = '\n') →
    ∃ k, ((Segmenter.graphemes (front ++ a :: b :: back)).take k).flatten = front ++ [a]
  one_cell : ∀ c : Char, Printable c → Segmenter.width [c] = 1

/-! ### Printable heads -/

theorem printableAscii_leadByte {c : Char} :
    printableAscii (leadByte c) = true ↔ Printable c := by
  unfold printableAscii Printable
  rw [Bool.and_eq_true, decide_eq_true_eq, decide_eq_true_eq, UInt8.le_iff_toNat_le,
    UInt8.lt_iff_toNat_lt]
  constructor
  · rintro ⟨low, high⟩
    have high' : (leadByte c).toNat < 0x7f := high
    have ascii := leadByte_lt_iff.1 (show (leadByte c).toNat < 128 by omega)
    rw [toNat_leadByte_ascii ascii] at low high'
    exact ⟨low, high'⟩
  · rintro ⟨low, high⟩
    rw [toNat_leadByte_ascii (show c.toNat < 128 by omega)]
    exact ⟨low, high⟩

theorem Printable.ascii {c : Char} (printable : Printable c) : c.toNat < 128 := by
  unfold Printable at printable
  omega

theorem size_ascii {text : Text} (ascii : ∀ c ∈ text, c.toNat < 128) : size text = text.length := by
  induction text with
  | nil => rfl
  | cons c text ih =>
      rw [size_cons, utf8Size_ascii (ascii c List.mem_cons_self),
        ih fun c' member => ascii c' (List.mem_cons_of_mem c member), List.length_cons, Nat.add_comm]

/-- Printable bytes at the head of a text are its first characters. -/
theorem printable_head {line : Text} {n : Nat} (inside : n ≤ size line)
    (printable : allPrintableAscii ((bytes line).take n) = true) :
    ∃ front back, line = front ++ back ∧ front.length = n ∧ ∀ c ∈ front, Printable c := by
  induction n generalizing line with
  | zero => exact ⟨[], line, rfl, rfl, fun c member => absurd member List.not_mem_nil⟩
  | succ n ih =>
      cases line with
      | nil => exact absurd inside (Nat.not_succ_le_zero n)
      | cons c line =>
          have lead : printableAscii (leadByte c) = true := by
            have first := head_bytes c line
            unfold allPrintableAscii at printable
            rw [List.all_eq_true] at printable
            apply printable
            rcases List.head?_eq_some_iff.1 first with ⟨rest, whole⟩
            rw [whole, List.take_succ_cons]
            exact List.mem_cons_self
          have here := printableAscii_leadByte.1 lead
          have single := encode_ascii here.ascii
          rw [size_cons, utf8Size_ascii here.ascii] at inside
          rw [bytes_cons, single, List.singleton_append, List.take_succ_cons, allPrintableAscii,
            List.all_cons, Bool.and_eq_true] at printable
          rcases ih (by omega) printable.2 with ⟨front, back, whole, length, rest⟩
          refine ⟨c :: front, back, by rw [whole, List.cons_append],
            by rw [List.length_cons, length], ?_⟩
          intro c' member
          rcases List.mem_cons.1 member with same | later
          · exact same ▸ here
          · exact rest c' later

section Laws

variable [Segmenter]

theorem columnsFrom_append (tabstop col : Nat) (gs gs' : List Text) :
    columnsFrom tabstop col (gs ++ gs') = columnsFrom tabstop (columnsFrom tabstop col gs) gs' :=
  List.foldl_append

theorem columnsFrom_cons (tabstop col : Nat) (g : Text) (gs : List Text) :
    columnsFrom tabstop col (g :: gs) = columnsFrom tabstop (col + graphemeWidth g col tabstop) gs :=
  rfl

theorem le_columnsFrom (tabstop col : Nat) (gs : List Text) : col ≤ columnsFrom tabstop col gs := by
  induction gs generalizing col with
  | nil => exact Nat.le_refl col
  | cons g gs ih => exact Nat.le_trans (Nat.le_add_right _ _) (ih _)

variable {gs : List Text} {tabstop byte col target : Nat} {line front : Text} {cell : Cell}

/-- More graphemes take no fewer cells. -/
theorem columnsFrom_mono {gs' : List Text} (fewer : gs <+: gs') (col : Nat) :
    columnsFrom tabstop col gs ≤ columnsFrom tabstop col gs' := by
  rcases fewer with ⟨rest, whole⟩
  rw [← whole, columnsFrom_append]
  exact le_columnsFrom tabstop _ rest

theorem isBoundary_iff : isBoundary line byte = true ↔ Cut (Segmenter.graphemes line) byte := by
  have ends : (byte = 0 ∨ byte ∈ endsFrom 0 (Segmenter.graphemes line)) ↔
      ∃ k, 0 + size ((Segmenter.graphemes line).take k).flatten = byte := cut_iff_ends
  simp only [Nat.zero_add] at ends
  rw [isBoundary, Bool.or_eq_true, beq_iff_eq, List.contains_iff_mem]
  exact ends

variable [LawfulSegmenter]

open LawfulSegmenter (join nonempty)

theorem upto_size (whole : size line ≤ byte) :
    upto (Segmenter.graphemes line) byte = Segmenter.graphemes line :=
  upto_all ((join line).symm ▸ whole)

theorem upto_min (line : Text) (byte : Nat) :
    upto (Segmenter.graphemes line) (min byte (size line)) =
      upto (Segmenter.graphemes line) byte := by
  rcases Nat.le_total byte (size line) with short | long
  · rw [Nat.min_eq_left short]
  · rw [Nat.min_eq_right long, upto_size (Nat.le_refl _), upto_size long]

/-- A printable character takes its one cell, alone. -/
theorem graphemeWidth_printable {c : Char} (printable : Printable c) (col tabstop : Nat) :
    graphemeWidth [c] col tabstop = 1 := by
  have no_tab : c ≠ '\t' := by
    intro same
    subst same
    exact absurd printable (by decide)
  have no_control : controlWidth c = none := by
    unfold Printable at printable
    unfold controlWidth
    rw [if_neg no_tab, if_neg (by omega), if_neg (by omega)]
  rw [graphemeWidth, if_neg (by simpa using no_tab)]
  simp only [singleChar, Option.bind_some, no_control]
  exact LawfulSegmenter.one_cell c printable

theorem columnsFrom_printable (printable : ∀ c ∈ front, Printable c) (tabstop col : Nat) :
    columnsFrom tabstop col (front.map fun c => [c]) = col + front.length := by
  induction front generalizing col with
  | nil => rfl
  | cons c front ih =>
      rw [List.map_cons, columnsFrom_cons,
        graphemeWidth_printable (printable c List.mem_cons_self),
        ih fun c' member => printable c' (List.mem_cons_of_mem c member), List.length_cons]
      omega

omit [Segmenter] [LawfulSegmenter] in
/-- A cut behind a front with nothing of its last cluster missing. -/
theorem upto_of_take (none_empty : [] ∉ gs) (k : Nat) :
    upto gs (size (gs.take k).flatten) = gs.take k := by
  have split := upto_append (gs.take k) (gs.drop k) 0
  rw [List.take_append_drop, Nat.add_zero] at split
  rw [split]
  cases behind : gs.drop k with
  | nil => rw [upto, List.append_nil]
  | cons g rest =>
      have member : g ∈ gs := List.mem_of_mem_drop (behind ▸ List.mem_cons_self)
      have some_text : size g ≠ 0 := by
        intro empty
        exact none_empty (size_eq_zero.1 empty ▸ member)
      rw [upto, if_neg (by omega), List.append_nil]

/-- **Printable characters are graphemes of their own**, up to the last of them, or all of them at the
end of the text. -/
theorem take_printable {text back : Text} (whole : text = front ++ back)
    (printable : ∀ c ∈ front, Printable c) {m : Nat}
    (inside : m < front.length ∨ (back = [] ∧ m ≤ front.length)) :
    (Segmenter.graphemes text).take m = (text.take m).map fun c => [c] := by
  have long : m ≤ text.length := by
    rw [whole, List.length_append]
    omega
  have singles := take_singles (nonempty text) (m := m) (by rw [join]; exact long) ?_
  · rw [singles, join]
  · intro i small
    rw [join]
    cases i with
    | zero => exact ⟨0, rfl⟩
    | succ i =>
        by_cases last : i + 1 = text.length
        · exact ⟨(Segmenter.graphemes text).length, by
            rw [List.take_length, join, last, List.take_length]⟩
        · have here : i < text.length := by omega
          have next : i + 1 < text.length := by omega
          have front_next : i + 1 < front.length := by
            rcases inside with short | ⟨none_behind, -⟩
            · omega
            · rw [whole, none_behind, List.append_nil] at next
              exact next
          have char : ∀ j, (small_j : j < front.length) →
              ∀ inside_j : j < text.length, Printable text[j] := by
            intro j small_j inside_j
            have same : text[j] = front[j] := by
              simp only [whole, List.getElem_append_left small_j]
            rw [same]
            exact printable _ (List.getElem_mem small_j)
          have one := char i (by omega) here
          have two := char (i + 1) front_next next
          have split : text = text.take i ++ text[i] :: text[i + 1] :: text.drop (i + 2) := by
            rw [List.getElem_cons_drop, List.getElem_cons_drop, List.take_append_drop]
          have no_newline : ¬ (text[i] = '\r' ∧ text[i + 1] = '\n') := by
            rintro ⟨carriage, -⟩
            rw [carriage] at one
            exact absurd one (by decide)
          rcases LawfulSegmenter.ascii (text.take i) _ _ (text.drop (i + 2)) one.ascii two.ascii
            no_newline with ⟨k, found⟩
          rw [← split] at found
          exact ⟨k, by rw [found, List.take_succ_eq_append_getElem here]⟩

/-- The graphemes ending by a byte inside a printable head take a cell each. -/
theorem upto_printable {back : Text} (whole : line = front ++ back)
    (printable : ∀ c ∈ front, Printable c) {m : Nat}
    (inside : m < front.length ∨ (back = [] ∧ m ≤ front.length)) (tabstop : Nat) :
    upto (Segmenter.graphemes line) m = (front.take m).map (fun c => [c]) ∧
      columnsFrom tabstop 0 (upto (Segmenter.graphemes line) m) = m := by
  have short : m ≤ front.length := by omega
  have singles := take_printable whole printable inside
  have head : line.take m = front.take m := by
    rw [whole, List.take_append_of_le_length short]
  have early : ∀ c ∈ front.take m, Printable c := fun c member =>
    printable c (List.mem_of_mem_take member)
  have length : (front.take m).length = m := by
    rw [List.length_take, Nat.min_eq_left short]
  have sized : size ((Segmenter.graphemes line).take m).flatten = m := by
    rw [singles, flatten_singles, head, size_ascii fun c member => (early c member).ascii, length]
  have ended := upto_of_take (nonempty line) m
  rw [sized, singles, head] at ended
  refine ⟨ended, ?_⟩
  rw [ended, columnsFrom_printable early, length, Nat.zero_add]

/-! ### The floor of a byte -/

theorem cut_some_of_cut (lies : Cut (Segmenter.graphemes line) byte) :
    isCharBoundary line byte = true := by
  rcases lies with ⟨k, same⟩
  have whole := join line
  rw [← List.take_append_drop k (Segmenter.graphemes line), List.flatten_append] at whole
  have found := cut_append ((Segmenter.graphemes line).take k).flatten
    ((Segmenter.graphemes line).drop k).flatten
  rw [whole, same] at found
  rw [isCharBoundary, found]
  rfl

omit [Segmenter] [LawfulSegmenter] in
theorem asciiAt_eq_true {bs : List UInt8} {place : Nat} :
    asciiAt bs place = true ↔ ∃ b, bs[place]? = some b ∧ b.toNat < 128 := by
  unfold asciiAt
  cases bs[place]? with
  | none => simp
  | some b => simp [UInt8.lt_iff_toNat_lt]

/-- The shortcut between two ASCII characters lands on a boundary. -/
theorem cut_of_ascii (here : asciiAt (bytes line) byte = true)
    (before : byte = 0 ∨ (asciiAt (bytes line) (byte - 1) = true ∧
      ¬ ((bytes line)[byte - 1]? = some 13 ∧ (bytes line)[byte]? = some 10))) :
    Cut (Segmenter.graphemes line) byte := by
  rcases before with start | ⟨ascii, no_newline⟩
  · exact ⟨0, start.symm⟩
  · by_cases start : byte = 0
    · exact ⟨0, start.symm⟩
    · rcases asciiAt_eq_true.1 ascii with ⟨lead_a, found_a, ascii_a⟩
      rcases asciiAt_eq_true.1 here with ⟨lead_b, found_b, ascii_b⟩
      rcases exists_of_ascii_at ascii_a (by rw [List.head?_drop]; exact found_a) with
        ⟨front, a, rest, whole, before, lead⟩
      subst lead
      have small := leadByte_lt_iff.1 ascii_a
      have behind : (bytes rest).head? = some lead_b := by
        have dropped := drop_bytes_append (front ++ [a]) rest
        rw [List.append_assoc, List.singleton_append, ← whole, size_append, size_cons, size_nil,
          utf8Size_ascii small, before] at dropped
        rw [← dropped, List.head?_drop, ← found_b]
        congr 1
        omega
      cases rest with
      | nil => cases behind
      | cons b rest =>
          rw [head_bytes, Option.some.injEq] at behind
          subst behind
          have apart : ¬ (a = '\r' ∧ b = '\n') := by
            rintro ⟨carriage, newline⟩
            subst carriage newline
            exact no_newline ⟨found_a, found_b⟩
          rcases LawfulSegmenter.ascii front a b rest small (leadByte_lt_iff.1 ascii_b) apart with
            ⟨k, same⟩
          rw [← whole] at same
          refine ⟨k, ?_⟩
          rw [same, size_append, before, size_cons, size_nil, utf8Size_ascii small]
          omega

/-- **The floor** of a byte is where the graphemes ending by it end. -/
theorem floorGrapheme_eq (line : Text) (byte : Nat) :
    floorGrapheme line byte = size (upto (Segmenter.graphemes line) byte).flatten := by
  have within := size_upto_le (Segmenter.graphemes line) byte
  have lies := cut_upto (Segmenter.graphemes line) byte
  unfold floorGrapheme
  by_cases past : byte ≥ size line
  · rw [if_pos past, upto_size past, join]
  · rw [if_neg past]
    simp only
    split
    · next shortcut =>
        rw [Bool.and_eq_true, Bool.or_eq_true, beq_iff_eq, Bool.and_eq_true,
          Bool.not_eq_true', Bool.and_eq_false_iff, beq_eq_false_iff_ne, beq_eq_false_iff_ne] at shortcut
        have lies := cut_of_ascii shortcut.1 (shortcut.2.imp id fun both =>
          ⟨both.1, fun newline => both.2.elim (fun a => a newline.1) fun b => b newline.2⟩)
        exact Nat.le_antisymm (lies.le_upto (Nat.le_refl byte)) within
    · generalize snapped : Nat.findGreatest (fun byte => isCharBoundary line byte = true) byte = char
      have below : char ≤ byte := snapped ▸ Nat.findGreatest_le byte
      have above : size (upto (Segmenter.graphemes line) byte).flatten ≤ char :=
        snapped ▸ Nat.le_findGreatest within (cut_some_of_cut lies)
      split
      · next boundary =>
          exact Nat.le_antisymm ((isBoundary_iff.1 boundary).le_upto below) above
      · next inside =>
          have short : size (upto (Segmenter.graphemes line) byte).flatten ≤ char - 1 := by
            have other : size (upto (Segmenter.graphemes line) byte).flatten ≠ char := by
              intro same
              exact inside (isBoundary_iff.2 (same ▸ lies))
            omega
          have reached := Nat.findGreatest_spec
            (P := fun byte => isBoundary line byte = true) short (isBoundary_iff.2 lies)
          apply Nat.le_antisymm
          · apply (isBoundary_iff.1 reached).le_upto
            exact Nat.le_trans (Nat.findGreatest_le _) (by omega)
          · exact Nat.le_findGreatest short (isBoundary_iff.2 lies)

/-! ### The column of a byte -/

/-- The line up to the floor of a byte has the graphemes ending by the byte. -/
theorem graphemes_within (line : Text) (byte : Nat) :
    Segmenter.graphemes (within line (floorGrapheme line byte)) =
      upto (Segmenter.graphemes line) byte := by
  rcases upto_front (Segmenter.graphemes line) byte with ⟨rest, whole⟩
  have flat := congrArg List.flatten whole
  rw [List.flatten_append, join] at flat
  have cut := within_append (upto (Segmenter.graphemes line) byte).flatten rest.flatten 0
  rw [Nat.add_zero, within_zero, List.append_nil, flat, ← floorGrapheme_eq] at cut
  have front := LawfulSegmenter.front line (upto (Segmenter.graphemes line) byte).length
  rw [← List.prefix_iff_eq_take.1 (upto_front _ _)] at front
  rw [cut, front]

/-- The shortcut over a printable head, and the walk, give a byte its column. -/
theorem virtcol_eq (line : Text) (byte tabstop : Nat) :
    virtcol line byte tabstop = columnsFrom tabstop 0 (upto (Segmenter.graphemes line) byte) := by
  rw [← upto_min line byte]
  unfold virtcol
  simp only
  have inside : min byte (size line) ≤ size line := Nat.min_le_right _ _
  generalize min byte (size line) = byte at inside ⊢
  split
  · next printable =>
      rcases printable_head (Nat.min_le_right (byte + 1) (size line)) printable with
        ⟨front, back, whole, length, printable⟩
      have reach : byte < front.length ∨ (back = [] ∧ byte ≤ front.length) := by
        rcases Nat.lt_or_ge byte (size line) with short | long
        · exact Or.inl (by omega)
        · have sized := congrArg size whole
          rw [size_append, size_ascii fun c member => (printable c member).ascii] at sized
          refine Or.inr ⟨size_eq_zero.1 ?_, ?_⟩
          · omega
          · omega
      exact (upto_printable whole printable reach tabstop).2.symm
  · rw [graphemes_within]

/-- A later byte has no smaller column. -/
theorem virtcol_mono (line : Text) (tabstop : Nat) {byte' : Nat} (ordered : byte ≤ byte') :
    virtcol line byte tabstop ≤ virtcol line byte' tabstop := by
  rw [virtcol_eq, virtcol_eq]
  exact columnsFrom_mono (upto_mono _ ordered) 0

/-! ### The mapper -/

namespace LineVirtcol

omit [LawfulSegmenter] in
/-- The walk takes the graphemes that end by the byte, and leaves the rest. -/
theorem walk_eq (tabstop byte : Nat) (gs : List Text) {start : Nat} (col : Nat) (ahead : start ≤ byte) :
    walk tabstop byte (startsFrom start gs) start col =
      (startsFrom (start + size (upto gs (byte - start)).flatten)
          (gs.drop (upto gs (byte - start)).length),
        start + size (upto gs (byte - start)).flatten,
        columnsFrom tabstop col (upto gs (byte - start))) := by
  induction gs generalizing start col with
  | nil => rfl
  | cons g gs ih =>
      rw [startsFrom, walk, upto]
      by_cases fits : size g ≤ byte - start
      · rw [if_neg (by omega), if_pos fits, ih _ (by omega), Nat.sub_sub, List.flatten_cons,
          size_append, Nat.add_assoc, List.length_cons, List.drop_succ_cons, columnsFrom_cons]
      · rw [if_pos (by omega), if_neg fits]
        rfl

/-- Where a mapper of a line stands: behind some of its graphemes. -/
structure Stands (mapper : LineVirtcol) (line : Text) (tabstop : Nat) : Prop where
  same_line : mapper.line = line
  same_tabstop : mapper.tabstop = tabstop
  same_simple : mapper.simple = (new line tabstop).simple
  walked : ∃ k,
    mapper.graphemes = startsFrom (size ((Segmenter.graphemes line).take k).flatten)
      ((Segmenter.graphemes line).drop k) ∧
    mapper.walkedByte = size ((Segmenter.graphemes line).take k).flatten ∧
    mapper.walkedCol = columnsFrom tabstop 0 ((Segmenter.graphemes line).take k)

omit [LawfulSegmenter] in
theorem new_stands (line : Text) (tabstop : Nat) : (new line tabstop).Stands line tabstop :=
  ⟨rfl, rfl, rfl, 0, rfl, rfl, rfl⟩

variable {line : Text} {tabstop : Nat}

omit [LawfulSegmenter] in
/-- A line the mapper calls simple is printable throughout. -/
theorem virtcol_simple (simple : (new line tabstop).simple = true) (byte : Nat) :
    virtcol line byte tabstop = min byte (size line) := by
  have printable : allPrintableAscii ((bytes line).take
      (min (min byte (size line) + 1) (size line))) = true := by
    rw [allPrintableAscii, List.all_eq_true]
    intro b member
    have each := List.all_eq_true.1 simple b (List.mem_of_mem_take member)
    simp only [Bool.and_eq_true, Bool.not_eq_true', Bool.or_eq_false_iff, decide_eq_true_eq,
      decide_eq_false_iff_not, beq_eq_false_iff_ne, UInt8.lt_iff_toNat_lt] at each
    unfold printableAscii
    rw [Bool.and_eq_true, decide_eq_true_eq, decide_eq_true_eq, UInt8.le_iff_toNat_le,
      UInt8.lt_iff_toNat_lt]
    have other : b.toNat ≠ 127 := fun same => each.2.2 (UInt8.toNat_inj.1 same)
    have low : ¬ b.toNat < 32 := each.2.1
    have high : b.toNat < 128 := each.1
    constructor
    · show 32 ≤ b.toNat
      omega
    · show b.toNat < 127
      omega
  rw [virtcol]
  simp only
  rw [if_pos printable]

/-- **A query** answers with the byte's column, and leaves the mapper standing. -/
theorem at_byte_eq {mapper : LineVirtcol} (stands : mapper.Stands line tabstop) (byte : Nat) :
    (mapper.at_byte byte).1 = virtcol line byte tabstop ∧
      (mapper.at_byte byte).2.Stands line tabstop := by
  unfold at_byte
  by_cases simple : mapper.simple = true
  · rw [if_pos simple]
    rw [stands.same_simple] at simple
    exact ⟨by rw [virtcol_simple simple, stands.same_line], stands⟩
  · rw [if_neg simple]
    simp only
    generalize from_here : (if byte < mapper.walkedByte then
      { mapper with
        graphemes := startsFrom 0 (Segmenter.graphemes mapper.line)
        walkedByte := 0
        walkedCol := 0 } else mapper) = placed
    have ready : placed.Stands line tabstop ∧ placed.walkedByte ≤ byte := by
      rw [← from_here]
      split
      · refine ⟨⟨stands.same_line, stands.same_tabstop, stands.same_simple, 0, ?_, rfl, rfl⟩, Nat.zero_le byte⟩
        rw [← stands.same_line]
        rfl
      · next forward => exact ⟨stands, Nat.le_of_not_lt forward⟩
    rcases ready with ⟨⟨at_line, at_tabstop, same_simple, k, graphemes, walkedByte, walkedCol⟩, ahead⟩
    rw [walkedByte] at ahead
    have walked := walk_eq tabstop byte ((Segmenter.graphemes line).drop k)
      (columnsFrom tabstop 0 ((Segmenter.graphemes line).take k)) ahead
    have split := upto_append ((Segmenter.graphemes line).take k)
      ((Segmenter.graphemes line).drop k)
      (byte - size ((Segmenter.graphemes line).take k).flatten)
    rw [List.take_append_drop, Nat.add_sub_cancel' ahead] at split
    have taken : ((Segmenter.graphemes line).take k ++ upto ((Segmenter.graphemes line).drop k)
        (byte - size ((Segmenter.graphemes line).take k).flatten)) =
        (Segmenter.graphemes line).take (upto (Segmenter.graphemes line) byte).length := by
      rw [← split]
      exact List.prefix_iff_eq_take.1 (upto_front _ _)
    have dropped : ((Segmenter.graphemes line).drop k).drop
        (upto ((Segmenter.graphemes line).drop k)
          (byte - size ((Segmenter.graphemes line).take k).flatten)).length =
        (Segmenter.graphemes line).drop (upto (Segmenter.graphemes line) byte).length := by
      have whole := List.take_append_drop (upto (Segmenter.graphemes line) byte).length
        (Segmenter.graphemes line)
      rw [← taken, List.append_assoc] at whole
      have behind := List.take_append_drop k (Segmenter.graphemes line)
      have same := List.append_cancel_left (whole.trans behind.symm)
      have gone := congrArg (List.drop (upto ((Segmenter.graphemes line).drop k)
        (byte - size ((Segmenter.graphemes line).take k).flatten)).length) same
      rw [List.drop_left] at gone
      exact gone.symm
    rw [graphemes, walkedByte, walkedCol, at_tabstop, walked]
    have sized : size ((Segmenter.graphemes line).take k).flatten +
        size (upto ((Segmenter.graphemes line).drop k)
          (byte - size ((Segmenter.graphemes line).take k).flatten)).flatten =
        size ((Segmenter.graphemes line).take (upto (Segmenter.graphemes line) byte).length).flatten := by
      rw [← size_append, ← List.flatten_append, taken]
    refine ⟨?_, at_line, rfl, same_simple, (upto (Segmenter.graphemes line) byte).length, ?_,
      sized, ?_⟩
    · rw [virtcol_eq, split, columnsFrom_append]
    · show startsFrom _ _ = _
      rw [sized, dropped]
    · show columnsFrom _ _ _ = _
      rw [← columnsFrom_append, taken]

/-- Whatever is asked in whatever order, every byte is answered with its column. -/
theorem answers_eq {mapper : LineVirtcol} (stands : mapper.Stands line tabstop)
    (queries : List Nat) :
    mapper.answers queries = queries.map fun byte => virtcol line byte tabstop := by
  induction queries generalizing mapper with
  | nil => rfl
  | cons byte queries ih =>
      rcases at_byte_eq stands byte with ⟨answer, next⟩
      rw [answers, answer, ih next, List.map_cons]

end LineVirtcol

/-! ### The byte of a column -/

/-- A grapheme of a line: the byte and the column it starts at, and its cells. -/
structure Cell where
  start : Nat
  col : Nat
  width : Nat
deriving Repr, DecidableEq

/-- Graphemes laid out from a byte and a column on. -/
def cellsFrom (tabstop : Nat) : Nat → Nat → List Text → List Cell
  | _, _, [] => []
  | start, col, g :: rest =>
      { start := start, col := col, width := graphemeWidth g col tabstop } ::
        cellsFrom tabstop (start + size g) (col + graphemeWidth g col tabstop) rest

/-- The graphemes of a line. -/
def cells (line : Text) (tabstop : Nat) : List Cell :=
  cellsFrom tabstop 0 0 (Segmenter.graphemes line)

/-- The cell span of a grapheme contains a column. -/
def Cell.Spans (target : Nat) (cell : Cell) : Prop :=
  cell.col ≤ target ∧ target < cell.col + cell.width

/-- A grapheme without cells stands at a column. -/
def Cell.Marks (target : Nat) (cell : Cell) : Prop := cell.width = 0 ∧ cell.col = target

instance (target : Nat) : DecidablePred (Cell.Spans target) :=
  fun _ => inferInstanceAs (Decidable (_ ∧ _))

instance (target : Nat) : DecidablePred (Cell.Marks target) :=
  fun _ => inferInstanceAs (Decidable (_ ∧ _))

/-- The first grapheme that spans or marks a column. -/
def cellAt (target : Nat) (cells : List Cell) : Option Cell :=
  cells.find? fun cell => decide (cell.Spans target ∨ cell.Marks target)

omit [LawfulSegmenter] in
/-- The loop stops at the first grapheme that spans or marks the column. -/
theorem byteAtFrom_eq (tabstop len : Nat) (gs : List Text) (start : Nat) (ahead : col ≤ target) :
    byteAtFrom tabstop target len (startsFrom start gs) col =
      ((cellAt target (cellsFrom tabstop start col gs)).map (·.start)).getD len := by
  induction gs generalizing start col with
  | nil => rfl
  | cons g gs ih =>
      rw [startsFrom, byteAtFrom, cellsFrom, cellAt]
      by_cases stop : col + graphemeWidth g col tabstop > target ∨
          (graphemeWidth g col tabstop = 0 ∧ col = target)
      · rw [if_pos stop, List.find?_cons_of_pos]
        · rfl
        · rw [decide_eq_true_iff]
          exact stop.imp (fun beyond => ⟨ahead, beyond⟩) id
      · rw [if_neg stop, List.find?_cons_of_neg, ih _ (by omega)]
        · rfl
        · rw [decide_eq_true_iff]
          rintro (⟨-, beyond⟩ | marks)
          · exact stop (Or.inl beyond)
          · exact stop (Or.inr marks)

omit [LawfulSegmenter] in
theorem cellsFrom_append (tabstop start col : Nat) (gs gs' : List Text) :
    cellsFrom tabstop start col (gs ++ gs') = cellsFrom tabstop start col gs ++
      cellsFrom tabstop (start + size gs.flatten) (columnsFrom tabstop col gs) gs' := by
  induction gs generalizing start col with
  | nil => rfl
  | cons g gs ih =>
      rw [List.cons_append, cellsFrom, ih, cellsFrom, List.cons_append, List.flatten_cons,
        size_append, Nat.add_assoc, columnsFrom_cons]

omit [LawfulSegmenter] in
/-- Nothing laid out before a column spans or marks it. -/
theorem cellAt_before (tabstop start col : Nat) (short : columnsFrom tabstop col gs ≤ target)
    (wide : ∀ cell ∈ cellsFrom tabstop start col gs, cell.width ≠ 0) :
    cellAt target (cellsFrom tabstop start col gs) = none := by
  induction gs generalizing start col with
  | nil => rfl
  | cons g gs ih =>
      rw [columnsFrom_cons] at short
      rw [cellsFrom] at wide ⊢
      have reach := le_columnsFrom tabstop (col + graphemeWidth g col tabstop) gs
      rw [cellAt, List.find?_cons_of_neg]
      · exact ih _ _ short fun cell member => wide cell (List.mem_cons_of_mem _ member)
      · rw [decide_eq_true_iff]
        rintro (⟨-, beyond⟩ | ⟨none_wide, -⟩)
        · simp only at beyond
          omega
        · exact wide _ List.mem_cons_self none_wide

theorem wide_printable (printable : ∀ c ∈ front, Printable c) (tabstop start col : Nat) :
    ∀ cell ∈ cellsFrom tabstop start col (front.map fun c => [c]), cell.width ≠ 0 := by
  induction front generalizing start col with
  | nil => exact fun cell member => absurd member List.not_mem_nil
  | cons c front ih =>
      intro cell member
      rw [List.map_cons, cellsFrom] at member
      rcases List.mem_cons.1 member with same | later
      · rw [same, graphemeWidth_printable (printable c List.mem_cons_self)]
        exact Nat.one_ne_zero
      · exact ih (fun c' member => printable c' (List.mem_cons_of_mem c member)) _ _ cell later

/-- **The byte of a column** starts the first grapheme that spans or marks it, or is the line's end. -/
theorem byteAtVirtcol_eq (line : Text) (target tabstop : Nat) :
    byteAtVirtcol line target tabstop =
      ((cellAt target (cells line tabstop)).map (·.start)).getD (size line) := by
  unfold byteAtVirtcol
  simp only
  split
  · next printable =>
      rcases printable_head (Nat.min_le_right (target + 1) (size line)) printable with
        ⟨front, back, whole, length, printable⟩
      have sized := congrArg size whole
      rw [size_append, size_ascii fun c member => (printable c member).ascii] at sized
      rcases Nat.lt_or_ge target (size line) with short | long
      · -- The characters before the column are graphemes of one cell each.
        have singles := upto_printable whole printable (m := target) (Or.inl (by omega)) tabstop
        rcases upto_front (Segmenter.graphemes line) target with ⟨rest, parts⟩
        have early : ∀ c ∈ front.take target, Printable c := fun c member =>
          printable c (List.mem_of_mem_take member)
        have head : size (upto (Segmenter.graphemes line) target).flatten = target := by
          rw [singles.1, flatten_singles, size_ascii fun c member => (early c member).ascii,
            List.length_take]
          omega
        have before : cellAt target (cellsFrom tabstop 0 0
            (upto (Segmenter.graphemes line) target)) = none :=
          cellAt_before tabstop 0 0 (Nat.le_of_eq singles.2)
          (by rw [singles.1]; exact wide_printable early tabstop 0 0)
        rw [cells, ← parts, cellsFrom_append, cellAt, List.find?_append]
        unfold cellAt at before
        rw [before, Option.none_or, Nat.min_eq_left (Nat.le_of_lt short), Nat.zero_add, head,
          singles.2]
        cases rest with
        | nil =>
            rw [List.append_nil] at parts
            have full := congrArg (fun gs => size (List.flatten gs)) parts
            simp only [join] at full
            omega
        | cons g rest =>
            rw [cellsFrom, List.find?_cons_of_pos]
            · rfl
            · rw [decide_eq_true_iff]
              rcases Nat.eq_zero_or_pos (graphemeWidth g target tabstop) with none_wide | wide
              · exact Or.inr ⟨none_wide, rfl⟩
              · exact Or.inl ⟨Nat.le_refl _, Nat.lt_add_of_pos_right wide⟩
      · have none_behind : back = [] := size_eq_zero.1 (by omega)
        have singles := upto_printable whole printable (m := size line)
          (Or.inr ⟨none_behind, by omega⟩) tabstop
        rw [upto_size (Nat.le_refl _)] at singles
        have before : cellAt target (cellsFrom tabstop 0 0 (Segmenter.graphemes line)) = none :=
          cellAt_before tabstop 0 0
          (by rw [singles.2]; exact long)
          (by
            rw [singles.1]
            exact wide_printable (fun c member => printable c (List.mem_of_mem_take member)) tabstop 0 0)
        rw [cells, before, Nat.min_eq_right long]
        rfl
  · exact byteAtFrom_eq tabstop (size line) _ 0 (Nat.zero_le target)

omit [LawfulSegmenter] in
/-- A grapheme of the line starts behind those before it. -/
theorem mem_cellsFrom {start : Nat} (laid : cell ∈ cellsFrom tabstop start col gs) :
    ∃ k < gs.length,
      cell.start = start + size (gs.take k).flatten ∧
      cell.col = columnsFrom tabstop col (gs.take k) := by
  induction gs generalizing start col with
  | nil => exact absurd laid List.not_mem_nil
  | cons g gs ih =>
      rw [cellsFrom] at laid
      rcases List.mem_cons.1 laid with first | later
      · exact ⟨0, Nat.zero_lt_succ _, by rw [first]; rfl, by rw [first]; rfl⟩
      · rcases ih later with ⟨k, inside, at_byte, at_col⟩
        refine ⟨k + 1, Nat.succ_lt_succ inside, ?_, ?_⟩
        · rw [at_byte, List.take_succ_cons, List.flatten_cons, size_append, Nat.add_assoc]
        · rw [at_col, List.take_succ_cons, columnsFrom_cons]

/-- The column of a grapheme is the column of the byte it starts at. -/
theorem virtcol_start (laid : cell ∈ cells line tabstop) :
    virtcol line cell.start tabstop = cell.col := by
  rcases mem_cellsFrom laid with ⟨k, -, at_byte, at_col⟩
  rw [virtcol_eq, at_byte, Nat.zero_add, upto_of_take (nonempty line), at_col]

theorem virtcol_end (line : Text) (tabstop : Nat) :
    virtcol line (size line) tabstop = columnsFrom tabstop 0 (Segmenter.graphemes line) := by
  rw [virtcol_eq, upto_size (Nat.le_refl _)]

omit [LawfulSegmenter] in
/-- Graphemes that reach past a column have one that spans it. -/
theorem exists_spans (start : Nat) (ahead : col ≤ target)
    (reach : target < columnsFrom tabstop col gs) :
    ∃ cell ∈ cellsFrom tabstop start col gs, cell.Spans target := by
  induction gs generalizing start col with
  | nil => exact absurd reach (Nat.not_lt.2 ahead)
  | cons g gs ih =>
      rw [cellsFrom]
      by_cases here : target < col + graphemeWidth g col tabstop
      · exact ⟨_, List.mem_cons_self, ahead, here⟩
      · rcases ih (start + size g) (Nat.le_of_not_lt here) reach with ⟨cell, laid, spans⟩
        exact ⟨cell, List.mem_cons_of_mem _ laid, spans⟩

omit [LawfulSegmenter] in
/-- A grapheme that spans a column ends within the line. -/
theorem Cell.Spans.reach {start : Nat} (laid : cell ∈ cellsFrom tabstop start col gs)
    (spans : cell.Spans target) : target < columnsFrom tabstop col gs := by
  induction gs generalizing start col with
  | nil => exact absurd laid List.not_mem_nil
  | cons g gs ih =>
      rw [cellsFrom] at laid
      rw [columnsFrom_cons]
      rcases List.mem_cons.1 laid with first | later
      · rw [first] at spans
        exact Nat.lt_of_lt_of_le spans.2 (le_columnsFrom tabstop _ gs)
      · exact ih later

/-- **Columns agree.**  For every line and tabstop the mapper answers any queries in any order with the
columns of the bytes, which grow with the byte and are those the graphemes start at.  The byte of a
column starts the first grapheme that spans the column, or that stands at it without a cell, and is the
line's end where there is none; its own column is no greater.  Where no grapheme stands at the column
without a cell, that is the grapheme whose cells contain the column, or the line's end where the line
is no wider. -/
theorem columns_agree (line : Text) (tabstop : Nat) :
    (∀ queries, (LineVirtcol.new line tabstop).answers queries =
      queries.map fun byte => virtcol line byte tabstop) ∧
    (∀ byte byte', byte ≤ byte' → virtcol line byte tabstop ≤ virtcol line byte' tabstop) ∧
    (∀ cell ∈ cells line tabstop, virtcol line cell.start tabstop = cell.col) ∧
    (∀ target, byteAtVirtcol line target tabstop =
      ((cellAt target (cells line tabstop)).map (·.start)).getD (size line)) ∧
    (∀ target, virtcol line (byteAtVirtcol line target tabstop) tabstop ≤ target) ∧
    (∀ target, (∀ cell ∈ cells line tabstop, ¬ cell.Marks target) →
      (virtcol line (size line) tabstop ≤ target → byteAtVirtcol line target tabstop = size line) ∧
      (target < virtcol line (size line) tabstop → ∃ cell ∈ cells line tabstop,
        byteAtVirtcol line target tabstop = cell.start ∧ cell.Spans target)) := by
  refine ⟨LineVirtcol.answers_eq (LineVirtcol.new_stands line tabstop),
    fun _ _ => virtcol_mono line tabstop, fun _ => virtcol_start,
    fun target => byteAtVirtcol_eq line target tabstop, ?_, ?_⟩
  · intro target
    rw [byteAtVirtcol_eq]
    cases found : cellAt target (cells line tabstop) with
    | some cell =>
        rw [Option.map_some, Option.getD_some, virtcol_start (List.mem_of_find?_eq_some found)]
        have holds := List.find?_some found
        rw [decide_eq_true_iff] at holds
        exact holds.elim (fun spans => spans.1) fun marks => Nat.le_of_eq marks.2
    | none =>
        rw [Option.map_none, Option.getD_none, virtcol_end]
        by_contra wider
        rcases exists_spans 0 (Nat.zero_le target) (Nat.lt_of_not_le wider) with
          ⟨cell, laid, spans⟩
        have missed := List.find?_eq_none.1 found cell laid
        rw [decide_eq_true_iff] at missed
        exact missed (Or.inl spans)
  · intro target unmarked
    rw [byteAtVirtcol_eq, virtcol_end]
    constructor
    · intro narrow
      have nothing : cellAt target (cells line tabstop) = none := by
        apply List.find?_eq_none.2
        intro cell laid
        rw [decide_eq_true_iff]
        rintro (spans | marks)
        · exact absurd (spans.reach laid) (Nat.not_lt.2 narrow)
        · exact unmarked cell laid marks
      rw [nothing]
      rfl
    · intro wide
      cases found : cellAt target (cells line tabstop) with
      | some cell =>
          have laid := List.mem_of_find?_eq_some found
          have holds := List.find?_some found
          rw [decide_eq_true_iff] at holds
          exact ⟨cell, laid, rfl, holds.elim id fun marks => absurd marks (unmarked cell laid)⟩
      | none =>
          rcases exists_spans 0 (Nat.zero_le target) wide with ⟨cell, laid, spans⟩
          have missed := List.find?_eq_none.1 found cell laid
          rw [decide_eq_true_iff] at missed
          exact absurd (Or.inl spans) missed

end Laws

/-! ### A line with a zero-width space -/

/-- Characters that never combine, one of them without a cell. -/
@[reducible] def scalars : Segmenter where
  graphemes line := line.map fun c => [c]
  width text := (text.map fun c => if c = '\u200b' then 0 else 1).sum

theorem scalars_lawful : @LawfulSegmenter scalars :=
  letI := scalars
  { join := flatten_singles
    nonempty := by
      intro line empty
      rcases List.mem_map.1 empty with ⟨c, -, same⟩
      cases same
    front := by
      intro line k
      show ((line.map _).take k).flatten.map _ = (line.map _).take k
      rw [← List.map_take, flatten_singles]
    ascii := by
      intro front a b back _ _ _
      refine ⟨front.length + 1, ?_⟩
      show ((List.map _ (front ++ a :: b :: back)).take (front.length + 1)).flatten = _
      rw [← List.map_take, flatten_singles, List.take_length_add_append]
      rfl
    one_cell := by
      intro c printable
      have other : c ≠ '\u200b' := by
        intro same
        subst same
        exact absurd printable (by decide)
      show (List.map _ [c]).sum = 1
      rw [List.map_singleton, if_neg other]
      rfl }

theorem columns_agree_scalars : letI := scalars
    (LineVirtcol.new ['a', '\t', 'b'] 8).answers [3, 1, 2] = [9, 1, 8] :=
  letI := scalars
  haveI := scalars_lawful
  ((columns_agree ['a', '\t', 'b'] 8).1 [3, 1, 2]).trans (by decide)

/-- Behind `a` stands a zero-width space, then `b`: column 1 is in `b`'s cell, and the byte found is
the space's. -/
theorem zero_width_is_found : letI := scalars
    byteAtVirtcol ['a', '\u200b', 'b'] 1 8 = 1 ∧
      ¬ ∃ cell ∈ cells ['a', '\u200b', 'b'] 8, cell.start = 1 ∧ cell.Spans 1 := by
  decide

end Bemtvi.Core.Columns
