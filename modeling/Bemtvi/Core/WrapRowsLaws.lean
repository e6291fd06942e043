/-
Module: Bemtvi.Core.WrapRowsLaws
Purpose: Soft-wrap rows partition the line at graphemes, for every width, indent and setting; and each
  row of text fits with the inline cells anchored in it, unless it is a lone grapheme, or begins with
  a word 'linebreak' carried down that is too wide there.  The walk's invariant says where the open
  row, its last word and the placed splices stand.
Trusted boundary: none
Main exports: Wrapping.Carried, Wrapping.Closed, Wrapping.Walked, walked_turn, Contiguous, AtColumns,
  Wrapping.Fits, wrap_rows_fit
-/
import Bemtvi.Core.WrapRows

namespace Bemtvi.Core.Columns

open Utf8 Clusters

/-! ### Splices -/

theorem spliced_append (front back : List (Nat × Nat)) :
    spliced (front ++ back) = spliced front + spliced back := by
  simp [spliced]

theorem spliced_filter_mono {xs : List (Nat × Nat)} {p q : Nat × Nat → Bool}
    (fewer : ∀ x ∈ xs, p x = true → q x = true) : spliced (xs.filter p) ≤ spliced (xs.filter q) := by
  induction xs with
  | nil => exact Nat.le_refl _
  | cons x xs ih =>
      have rest := ih fun y member => fewer y (List.mem_cons_of_mem x member)
      rw [List.filter_cons, List.filter_cons]
      cases first : p x with
      | true =>
          rw [fewer x List.mem_cons_self first]
          simp only [spliced, if_true, List.map_cons, List.sum_cons] at rest ⊢
          omega
      | false =>
          cases q x with
          | true =>
              simp only [spliced, Bool.false_eq_true, if_false, if_true, List.map_cons,
                List.sum_cons] at rest ⊢
              omega
          | false => exact rest

/-- Ascending by anchor. -/
def Ascending (splices : List (Nat × Nat)) : Prop := splices.Pairwise fun a b => a.1 ≤ b.1

theorem lt_of_mem_dropWhile {xs : List (Nat × Nat)} (sorted : Ascending xs) {col : Nat}
    {splice : Nat × Nat} (left : splice ∈ xs.dropWhile fun splice => splice.1 ≤ col) :
    col < splice.1 := by
  induction xs with
  | nil => exact absurd left List.not_mem_nil
  | cons x xs ih =>
      rcases List.pairwise_cons.1 sorted with ⟨first, sorted⟩
      rw [List.dropWhile_cons] at left
      split at left
      · exact ih sorted left
      · next beyond =>
          have above : col < x.1 := by simpa using beyond
          rcases List.mem_cons.1 left with same | later
          · exact same ▸ above
          · exact Nat.lt_of_lt_of_le above (first splice later)

/-- Which splices are placed once `m` graphemes are: those no further than one of them. -/
structure Placed (splices : List (Nat × Nat)) (cols : Nat → Nat) (m n : Nat) : Prop where
  behind : ∀ splice ∈ splices.take n, ∃ i < m, splice.1 ≤ cols i
  ahead : ∀ splice ∈ splices.drop n, ∀ i < m, cols i < splice.1

theorem placed_none (splices : List (Nat × Nat)) (cols : Nat → Nat) : Placed splices cols 0 0 where
  behind := fun _ member => absurd member List.not_mem_nil
  ahead := fun _ _ _ none_before => absurd none_before (Nat.not_lt_zero _)

/-- Another grapheme, with the splices it is placed behind. -/
theorem Placed.next {splices : List (Nat × Nat)} {cols : Nat → Nat} {m n : Nat}
    (sorted : Ascending splices) (placed : Placed splices cols m n) :
    let pending := (splices.drop n).takeWhile fun splice => splice.1 ≤ cols m
    splices.take (n + pending.length) = splices.take n ++ pending ∧
      Placed splices cols (m + 1) (n + pending.length) := by
  intro pending
  have split : pending ++ (splices.drop n).dropWhile (fun splice => splice.1 ≤ cols m) =
      splices.drop n := List.takeWhile_append_dropWhile
  have taken : splices.take (n + pending.length) = splices.take n ++ pending := by
    rw [List.take_add, ← split, List.take_left]
  have dropped : splices.drop (n + pending.length) =
      (splices.drop n).dropWhile fun splice => splice.1 ≤ cols m := by
    have gone := congrArg (List.drop pending.length) split
    rw [List.drop_left] at gone
    rw [← List.drop_drop]
    exact gone.symm
  refine ⟨taken, ?_, ?_⟩
  · intro splice member
    rw [taken] at member
    rcases List.mem_append.1 member with old | new
    · rcases placed.behind splice old with ⟨i, small, before⟩
      exact ⟨i, Nat.lt_succ_of_lt small, before⟩
    · exact ⟨m, Nat.lt_succ_self m, of_decide_eq_true
        (List.mem_takeWhile_imp (p := fun splice : Nat × Nat => decide (splice.1 ≤ cols m)) new)⟩
  · intro splice member i small
    rw [dropped] at member
    rcases Nat.lt_succ_iff_lt_or_eq.1 small with old | last
    · exact placed.ahead splice ((List.dropWhile_sublist _).subset member) i old
    · rw [last]
      exact lt_of_mem_dropWhile (sorted.sublist (List.drop_sublist n splices)) member

/-! ### Segments -/

/-- Segments that continue one another from a byte to another. -/
def Contiguous : Nat → List WrapSeg → Nat → Prop
  | lo, [], hi => lo = hi
  | lo, seg :: segs, hi => seg.startByte = lo ∧ Contiguous seg.endByte segs hi

theorem Contiguous.snoc {lo hi : Nat} {segs : List WrapSeg} (before : Contiguous lo segs hi)
    (stop col : Nat) : Contiguous lo (segs ++ [⟨hi, stop, col⟩]) stop := by
  induction segs generalizing lo with
  | nil => exact ⟨Eq.symm before, rfl⟩
  | cons seg segs ih => exact ⟨before.1, ih before.2⟩

/-! ### Bytes and columns of graphemes -/

section Walk

variable [Segmenter]

/-- The byte the grapheme of an index starts at. -/
def byteOf (gs : List Text) (i : Nat) : Nat := size (gs.take i).flatten

/-- The column it starts at. -/
def colOf (tabstop : Nat) (gs : List Text) (i : Nat) : Nat := columnsFrom tabstop 0 (gs.take i)

variable {i j : Nat}

omit [Segmenter] in
theorem byteOf_succ {gs : List Text} (inside : i < gs.length) :
    byteOf gs (i + 1) = byteOf gs i + size gs[i] := by
  rw [byteOf, List.take_succ_eq_append_getElem inside, List.flatten_append, size_append, byteOf]
  simp

theorem colOf_succ (tabstop : Nat) {gs : List Text} (inside : i < gs.length) :
    colOf tabstop gs (i + 1) =
      colOf tabstop gs i + graphemeWidth gs[i] (colOf tabstop gs i) tabstop := by
  rw [colOf, List.take_succ_eq_append_getElem inside, columnsFrom_append]
  rfl

theorem colOf_mono (tabstop : Nat) (gs : List Text) (ordered : i ≤ j) :
    colOf tabstop gs i ≤ colOf tabstop gs j :=
  columnsFrom_mono (List.take_prefix_take_left ordered) 0

omit [Segmenter] in
theorem byteOf_mono (gs : List Text) (ordered : i ≤ j) : byteOf gs i ≤ byteOf gs j := by
  rcases List.take_prefix_take_left (l := gs) ordered with ⟨more, whole⟩
  rw [byteOf, byteOf, ← whole, List.flatten_append, size_append]
  exact Nat.le_add_right _ _

omit [Segmenter] in
theorem byteOf_lt {gs : List Text} (none_empty : [] ∉ gs) (smaller : i < j)
    (inside : j ≤ gs.length) : byteOf gs i < byteOf gs j := by
  have here : i < gs.length := Nat.lt_of_lt_of_le smaller inside
  have some_text : size gs[i] ≠ 0 := by
    intro empty
    exact none_empty (size_eq_zero.1 empty ▸ List.getElem_mem here)
  have next := byteOf_succ here
  have later : byteOf gs (i + 1) ≤ byteOf gs j := byteOf_mono gs smaller
  omega

namespace Wrapping

variable (wrapping : Wrapping) (gs : List Text)

/-! ### Rows -/

/-- The cells of the splices anchored from a column to before another. -/
def anchoredFrom (lo hi : Nat) : Nat :=
  spliced (wrapping.splices.filter fun splice => lo ≤ splice.1 && splice.1 < hi)

/-- Every splice is anchored at a column where a grapheme starts, or past the text. -/
def Anchored : Prop :=
  ∀ splice ∈ wrapping.splices, (∃ i ≤ gs.length, splice.1 = colOf wrapping.tabstop gs i) ∨
    colOf wrapping.tabstop gs gs.length ≤ splice.1

/-- The row that starts at a grapheme has room for those before another, with the cells of splices. -/
def Room (i j inline : Nat) : Prop :=
  colOf wrapping.tabstop gs j - colOf wrapping.tabstop gs i ≤ wrapping.avail (byteOf gs i) ∧
    (wrapping.Anchored gs → colOf wrapping.tabstop gs j - colOf wrapping.tabstop gs i + inline ≤
      wrapping.avail (byteOf gs i))

/-- A word starts at a grapheme, behind a blank. -/
def BeginsWord (i : Nat) : Prop :=
  ∃ blank word, gs[i]? = some word ∧ isBlank word = false ∧ isBlank blank = true ∧
    ∃ h, i = h + 1 ∧ gs[h]? = some blank

/-- **The slip**: the row begins with a word that 'linebreak' carried down, and nothing asked whether
it has room.  The row before had room for all of it but its last grapheme. -/
def Carried (segs : List WrapSeg) (i j : Nat) : Prop :=
  wrapping.linebreak = true ∧ BeginsWord gs i ∧ ∃ k m, k < i ∧ i < m ∧ j = m + 1 ∧
    ⟨byteOf gs k, byteOf gs i, colOf wrapping.tabstop gs k⟩ ∈ segs ∧
    wrapping.Room gs k m
      (wrapping.anchoredFrom (colOf wrapping.tabstop gs k) (colOf wrapping.tabstop gs m))

/-- A row of graphemes that is as it should be, with the cells of its splices: a lone one, or one that
fits, or one that begins with a word carried down from the rows before. -/
def Tight (segs : List WrapSeg) (i j inline : Nat) : Prop :=
  j = i + 1 ∨ wrapping.Room gs i j inline ∨ wrapping.Carried gs segs i j

/-- Rows closed so far, up to an index. -/
inductive Closed : List WrapSeg → Nat → Prop
  | nil : Closed [] 0
  | snoc {segs : List WrapSeg} {i j : Nat} (before : Closed segs i) (further : i < j)
      (inside : j ≤ gs.length)
      (tight : wrapping.Tight gs segs i j
        (wrapping.anchoredFrom (colOf wrapping.tabstop gs i) (colOf wrapping.tabstop gs j))) :
      Closed (segs ++ [⟨byteOf gs i, byteOf gs j, colOf wrapping.tabstop gs i⟩]) j

/-- **Where the walk stands** behind `m` graphemes, with a row open since grapheme `k`. -/
structure Walked (m k : Nat) (s : Wrap) : Prop where
  byte : s.byte = byteOf gs m
  col : s.col = colOf wrapping.tabstop gs m
  rowByte : s.segStartByte = byteOf gs k
  rowCol : s.segStartCol = colOf wrapping.tabstop gs k
  begun : k < m ∨ (k = 0 ∧ m = 0)
  blank : s.afterBlank = true → ∃ b, isBlank b = true ∧ ∃ h, m = h + 1 ∧ gs[h]? = some b
  word : ∀ ws, s.wordStart = some ws → ∃ j, k ≤ j ∧ j < m ∧ BeginsWord gs j ∧
    ws = (byteOf gs j, colOf wrapping.tabstop gs j)
  placed : Placed wrapping.splices (colOf wrapping.tabstop gs) m s.nextSplice
  closed : wrapping.Closed gs s.segs k
  inline : wrapping.Anchored gs → s.rowInline = spliced ((wrapping.splices.take s.nextSplice).filter
    fun splice => colOf wrapping.tabstop gs k ≤ splice.1)
  fits : m ≤ k + 1 ∨
    colOf wrapping.tabstop gs m - colOf wrapping.tabstop gs k + s.rowInline ≤
      wrapping.avail (byteOf gs k) ∨
    (s.wordStart = none ∧ wrapping.Carried gs s.segs k m)

theorem walked_start : wrapping.Walked gs 0 0 .start where
  byte := rfl
  col := rfl
  rowByte := rfl
  rowCol := rfl
  begun := Or.inr ⟨rfl, rfl⟩
  blank := fun none_yet => by cases none_yet
  word := fun _ none_yet => by cases none_yet
  placed := placed_none _ _
  closed := .nil
  inline := fun _ => rfl
  fits := Or.inl (Nat.zero_le _)

variable {wrapping gs}

variable {segs : List WrapSeg} {k : Nat}

theorem Closed.none_closed (closed : wrapping.Closed gs segs 0) : segs = [] := by
  cases closed with
  | nil => rfl
  | snoc _ further => exact absurd further (Nat.not_lt_zero _)

/-- A splice not placed yet is anchored at the next grapheme, or behind it. -/
theorem Anchored.le_ahead (anchored : wrapping.Anchored gs) {m : Nat} (inside : m ≤ gs.length)
    {splice : Nat × Nat} (listed : splice ∈ wrapping.splices)
    (ahead : ∀ i < m, colOf wrapping.tabstop gs i < splice.1) :
    colOf wrapping.tabstop gs m ≤ splice.1 := by
  rcases anchored splice listed with ⟨i, -, same⟩ | past
  · by_contra before
    have early : i < m := by
      by_contra late
      have later := colOf_mono wrapping.tabstop gs (Nat.le_of_not_lt late)
      omega
    exact absurd (ahead i early) (by omega)
  · exact Nat.le_trans (colOf_mono wrapping.tabstop gs inside) past

section Steps

variable {m k : Nat} {s : Wrap} (walked : wrapping.Walked gs m k s) (inside : m ≤ gs.length)
include walked inside

variable {j : Nat}

/-- No splice that is not placed yet is anchored before an index the walk has reached. -/
theorem Walked.ahead (anchored : wrapping.Anchored gs) (reached : j ≤ m) {splice : Nat × Nat}
    (left : splice ∈ wrapping.splices.drop s.nextSplice) :
    colOf wrapping.tabstop gs j ≤ splice.1 := by
  have beyond := anchored.le_ahead inside (List.mem_of_mem_drop left)
    (walked.placed.ahead splice left)
  exact Nat.le_trans (colOf_mono wrapping.tabstop gs reached) beyond

/-- What is anchored in a row that ends by here is among the cells on it. -/
theorem Walked.anchoredFrom_le (anchored : wrapping.Anchored gs) (reached : j ≤ m) :
    wrapping.anchoredFrom (colOf wrapping.tabstop gs k) (colOf wrapping.tabstop gs j) ≤
      s.rowInline := by
  rw [walked.inline anchored, anchoredFrom]
  conv_lhs => rw [← List.take_append_drop s.nextSplice wrapping.splices]
  rw [List.filter_append, spliced_append]
  have none_ahead : (wrapping.splices.drop s.nextSplice).filter (fun splice =>
      colOf wrapping.tabstop gs k ≤ splice.1 && splice.1 < colOf wrapping.tabstop gs j) = [] := by
    apply List.filter_eq_nil_iff.2
    intro splice left both
    rw [Bool.and_eq_true, decide_eq_true_eq, decide_eq_true_eq] at both
    have beyond := walked.ahead inside anchored reached left
    omega
  rw [none_ahead]
  apply spliced_filter_mono
  intro splice _ both
  rw [Bool.and_eq_true] at both
  exact both.1

/-- The open row has room for what is on it, if it is neither a lone grapheme nor a carried word. -/
theorem Walked.room (reached : j ≤ m)
    (fits : colOf wrapping.tabstop gs m - colOf wrapping.tabstop gs k + s.rowInline ≤
      wrapping.avail (byteOf gs k)) : wrapping.Room gs k j
      (wrapping.anchoredFrom (colOf wrapping.tabstop gs k) (colOf wrapping.tabstop gs j)) := by
  have cols := colOf_mono wrapping.tabstop gs reached
  refine ⟨by omega, fun anchored => ?_⟩
  have cells := walked.anchoredFrom_le inside anchored reached
  omega

/-- A row that ends by here, the open one or a front of it, is as it should be. -/
theorem Walked.tight (further : k < j) (reached : j ≤ m) (edge : s.wordStart = none → j = m) :
    wrapping.Tight gs s.segs k j
      (wrapping.anchoredFrom (colOf wrapping.tabstop gs k) (colOf wrapping.tabstop gs j)) := by
  rcases walked.fits with lone | fits | ⟨none_noted, carried⟩
  · exact Or.inl (by omega)
  · exact Or.inr (Or.inl (walked.room inside reached fits))
  · rw [edge none_noted]
    exact Or.inr (Or.inr carried)

omit inside in
/-- A break closes the open row at the next grapheme, or under 'linebreak' at one of its words. -/
theorem Walked.breakAt (begun : k < m) : ∃ j, k < j ∧ j ≤ m ∧
    wrapping.breakAt s = (byteOf gs j, colOf wrapping.tabstop gs j) ∧
    (j < m → s.wordStart ≠ none ∧ wrapping.linebreak = true ∧ BeginsWord gs j) := by
  have edge {P : Nat → Prop} : ∃ j, k < j ∧ j ≤ m ∧
      (s.byte, s.col) = (byteOf gs j, colOf wrapping.tabstop gs j) ∧ (j < m → P j) :=
    ⟨m, begun, Nat.le_refl m, by rw [walked.byte, walked.col],
      fun before => absurd before (Nat.lt_irrefl m)⟩
  unfold Wrapping.breakAt
  cases noted : s.wordStart with
  | none => exact edge
  | some ws =>
      rcases walked.word ws noted with ⟨j, behind, before, word, same⟩
      simp only
      split
      · next carried =>
          refine ⟨j, ?_, Nat.le_of_lt before, same,
            fun _ => ⟨Option.some_ne_none ws, carried.1, word⟩⟩
          rcases Nat.lt_or_eq_of_le behind with further | here
          · exact further
          · have beyond := carried.2
            rw [same, walked.rowByte, ← here] at beyond
            exact absurd beyond (Nat.lt_irrefl _)
      · exact edge

end Steps

omit [Segmenter] in
/-- What `noteWord` does: a word is noted behind a blank, and behind another word of the row. -/
theorem noteWord_eq (s : Wrap) (g : Text) : ∃ word afterBlank seenWord,
    noteWord s g = { s with wordStart := word, afterBlank := afterBlank, seenWord := seenWord } ∧
      (word = s.wordStart ∨ (word = some (s.byte, s.col) ∧ s.afterBlank = true ∧
        s.seenWord = true ∧ isBlank g = false)) ∧
      (afterBlank = true → isBlank g = true) := by
  unfold noteWord
  split
  · next blank => exact ⟨s.wordStart, true, s.seenWord, rfl, Or.inl rfl, fun _ => blank⟩
  · next solid =>
      refine ⟨_, false, true, rfl, ?_, nofun⟩
      split
      · next both =>
          rw [Bool.and_eq_true] at both
          exact Or.inr ⟨rfl, both.1, both.2, Bool.eq_false_iff.2 solid⟩
      · exact Or.inl rfl

/-- The cells on a row, once a grapheme's splices are placed. -/
theorem Walked.inline_next {m j : Nat} {s : Wrap} {cells : Nat}
    (placed : Placed wrapping.splices (colOf wrapping.tabstop gs) m s.nextSplice)
    (col : s.col = colOf wrapping.tabstop gs m) (sorted : Ascending wrapping.splices)
    (here : cells = spliced ((wrapping.splices.take s.nextSplice).filter
      fun splice => colOf wrapping.tabstop gs j ≤ splice.1))
    (ahead : ∀ splice ∈ wrapping.splices.drop s.nextSplice, colOf wrapping.tabstop gs j ≤ splice.1) :
    cells + spliced (wrapping.pending s) =
      spliced ((wrapping.splices.take (s.nextSplice + (wrapping.pending s).length)).filter
        fun splice => colOf wrapping.tabstop gs j ≤ splice.1) := by
  have taken := (placed.next sorted).1
  rw [← col] at taken
  have all : (wrapping.pending s).filter (fun splice => colOf wrapping.tabstop gs j ≤ splice.1) =
      wrapping.pending s := by
    apply List.filter_eq_self.2
    intro splice member
    exact decide_eq_true (ahead splice ((List.takeWhile_sublist _).subset member))
  unfold pending at all ⊢
  rw [taken, List.filter_append, spliced_append, here, all]

section Turn

variable {m k : Nat} {s : Wrap} (none_empty : [] ∉ gs) (sorted : Ascending wrapping.splices)
  (inside : m < gs.length) (walked : wrapping.Walked gs m k s)

include walked in
theorem Walked.row_le : k ≤ m := by
  rcases walked.begun with begun | ⟨zero, -⟩
  · exact Nat.le_of_lt begun
  · exact zero ▸ Nat.zero_le m

include walked in
/-- A grapheme behind the row's start is behind its first. -/
theorem Walked.begun_of_byte (behind : s.byte > s.segStartByte) : k < m := by
  rcases walked.begun with begun | ⟨zero, zero'⟩
  · exact begun
  · rw [walked.byte, walked.rowByte, zero, zero'] at behind
    exact absurd behind (Nat.lt_irrefl _)

include sorted walked in
theorem Walked.placed_next : Placed wrapping.splices (colOf wrapping.tabstop gs) (m + 1)
    (s.nextSplice + (wrapping.pending s).length) := by
  have next := (walked.placed.next sorted).2
  rw [← walked.col] at next
  exact next

include walked in
theorem Walked.col_next : s.col + graphemeWidth gs[m] s.col wrapping.tabstop =
    colOf wrapping.tabstop gs (m + 1) := by
  rw [walked.col, colOf_succ wrapping.tabstop inside]

include walked in
theorem Walked.byte_next : s.byte + size gs[m] = byteOf gs (m + 1) := by
  rw [walked.byte, byteOf_succ inside]

include walked in
/-- A word noted here starts at the grapheme. -/
theorem Walked.beginsWord (behind : s.afterBlank = true) (solid : isBlank gs[m] = false) :
    BeginsWord gs m := by
  rcases walked.blank behind with ⟨b, blank, before⟩
  exact ⟨b, gs[m], List.getElem?_eq_getElem inside, solid, blank, before⟩

omit walked [Segmenter] in
theorem blank_next {afterBlank : Bool} (noted : afterBlank = true → isBlank gs[m] = true)
    (after : afterBlank = true) :
    ∃ b, isBlank b = true ∧ ∃ h, m + 1 = h + 1 ∧ gs[h]? = some b :=
  ⟨gs[m], noted after, m, rfl, List.getElem?_eq_getElem inside⟩

include none_empty sorted walked

/-- The grapheme joins the open row. -/
theorem Walked.joined (narrow : ¬ wrapping.overflows s gs[m] = true) :
    wrapping.Walked gs (m + 1) k (wrapping.turn s gs[m]) := by
  have bound := Nat.le_of_lt inside
  rcases noteWord_eq s gs[m] with ⟨word, afterBlank, seenWord, noted, words, blanks⟩
  unfold turn
  rw [if_neg narrow]
  simp only
  rw [noted]
  refine ⟨walked.byte_next inside, walked.col_next inside, walked.rowByte, walked.rowCol,
    Or.inl (Nat.lt_succ_of_le walked.row_le), blank_next inside blanks, ?_,
    walked.placed_next sorted, walked.closed, ?_, ?_⟩
  · intro ws there
    rcases words with old | ⟨new, behind, -, solid⟩
    · rcases walked.word ws (old ▸ there) with ⟨j, behind, before, rest⟩
      exact ⟨j, behind, Nat.lt_succ_of_lt before, rest⟩
    · refine ⟨m, walked.row_le, Nat.lt_succ_self m, walked.beginsWord inside behind solid, ?_⟩
      rw [← walked.byte, ← walked.col]
      exact (Option.some.inj (new.symm.trans there)).symm
  · intro anchored
    exact Walked.inline_next walked.placed walked.col sorted (walked.inline anchored)
      fun splice left => walked.ahead bound anchored walked.row_le left
  · rcases walked.begun with begun | ⟨zero, zero'⟩
    · apply Or.inr (Or.inl ?_)
      have further := byteOf_lt none_empty begun bound
      have grown : colOf wrapping.tabstop gs k ≤ colOf wrapping.tabstop gs (m + 1) :=
        colOf_mono wrapping.tabstop gs (Nat.le_succ_of_le walked.row_le)
      have col := walked.col_next inside
      rw [overflows, Bool.and_eq_true, decide_eq_true_eq, decide_eq_true_eq, walked.byte,
        walked.rowByte, walked.rowCol] at narrow
      show _ + (s.rowInline + spliced (wrapping.pending s)) ≤ _
      have room := Nat.le_of_not_lt fun much => narrow ⟨much, further⟩
      omega
    · exact Or.inl (by omega)

omit none_empty in
/-- The row is closed, and the graphemes from the break on open the next. -/
theorem Walked.broken (wide : wrapping.overflows s gs[m] = true) :
    ∃ j, wrapping.Walked gs (m + 1) j (wrapping.turn s gs[m]) := by
  have bound := Nat.le_of_lt inside
  have behind := wide
  rw [overflows, Bool.and_eq_true, decide_eq_true_eq, decide_eq_true_eq] at behind
  rcases walked.breakAt (walked.begun_of_byte behind.2) with ⟨j, further, upto_here, brk, early⟩
  rcases noteWord_eq (wrapping.breakRow s) gs[m] with
    ⟨word, afterBlank, seenWord, noted, words, blanks⟩
  -- A row just opened has seen no word yet, so none is noted.
  have none_noted : word = none := by
    rcases words with old | ⟨-, -, unseen, -⟩
    · exact old
    · cases unseen
  have tight := walked.tight bound further upto_here (fun none_yet => by
    by_contra before
    exact (early (Nat.lt_of_le_of_ne upto_here before)).1 none_yet)
  have moved : wrapping.movedDown s = spliced ((wrapping.splices.take s.nextSplice).filter
      fun splice => colOf wrapping.tabstop gs j ≤ splice.1) := by
    unfold movedDown
    rw [brk]
  refine ⟨j, ?_⟩
  unfold turn
  rw [if_pos wide]
  simp only
  rw [noted]
  refine ⟨walked.byte_next inside, walked.col_next inside, ?_, ?_,
    Or.inl (Nat.lt_succ_of_le upto_here), blank_next inside blanks, ?_,
    walked.placed_next sorted, ?_, ?_, ?_⟩
  · show (wrapping.breakAt s).1 = _
    rw [brk]
  · show (wrapping.breakAt s).2 = _
    rw [brk]
  · intro ws there
    cases none_noted.symm.trans there
  · show wrapping.Closed gs (s.segs ++ [⟨s.segStartByte, (wrapping.breakAt s).1, s.segStartCol⟩]) j
    rw [brk, walked.rowByte, walked.rowCol]
    exact .snoc walked.closed further (Nat.le_trans upto_here bound) tight
  · intro anchored
    exact Walked.inline_next walked.placed walked.col sorted moved fun splice left =>
      walked.ahead bound anchored upto_here left
  · rcases Nat.lt_or_eq_of_le upto_here with carried | edge
    · rcases early carried with ⟨some_noted, linebreak, begins⟩
      refine Or.inr (Or.inr ⟨none_noted, linebreak, begins, k, m, further, carried, rfl, ?_, ?_⟩)
      · show _ ∈ s.segs ++ [⟨s.segStartByte, (wrapping.breakAt s).1, s.segStartCol⟩]
        rw [brk, walked.rowByte, walked.rowCol]
        exact List.mem_append_right _ (List.mem_singleton_self _)
      · -- The row before is no lone grapheme, and no word was carried to it: it noted one.
        rcases walked.fits with lone | fits | ⟨none_yet, -⟩
        · omega
        · exact walked.room bound (Nat.le_refl m) fits
        · exact absurd none_yet some_noted
    · exact Or.inl (by omega)

end Turn

/-- **One turn** of the walk. -/
theorem walked_turn (none_empty : [] ∉ gs) (sorted : Ascending wrapping.splices) {m : Nat}
    (inside : m < gs.length)
    (walked : wrapping.Walked gs m k ((gs.take m).foldl wrapping.turn .start)) :
    ∃ k', wrapping.Walked gs (m + 1) k' ((gs.take (m + 1)).foldl wrapping.turn .start) := by
  rw [List.take_succ_eq_append_getElem inside, List.foldl_append]
  by_cases wide : wrapping.overflows ((gs.take m).foldl wrapping.turn .start) gs[m] = true
  · exact walked.broken sorted inside wide
  · exact ⟨k, walked.joined none_empty sorted inside wide⟩

/-- The walk over the whole line. -/
theorem walked_line (none_empty : [] ∉ gs) (sorted : Ascending wrapping.splices) :
    ∃ k, wrapping.Walked gs gs.length k (gs.foldl wrapping.turn .start) := by
  have front : ∀ m ≤ gs.length, ∃ k,
      wrapping.Walked gs m k ((gs.take m).foldl wrapping.turn .start) := by
    intro m
    induction m with
    | zero => exact fun _ => ⟨0, wrapping.walked_start gs⟩
    | succ m ih =>
        intro inside
        rcases ih (Nat.le_of_succ_le inside) with ⟨k, walked⟩
        exact walked_turn none_empty sorted inside walked
  have whole := front gs.length (Nat.le_refl _)
  rw [List.take_length] at whole
  exact whole

/-- The open row takes all the splices from its column on, if those past the text join it. -/
theorem Walked.last {s : Wrap} (walked : wrapping.Walked gs gs.length k s)
    (further : k < gs.length) (narrow : spliced (wrapping.splices.drop s.nextSplice) > 0 →
      s.col + s.rowInline + spliced (wrapping.splices.drop s.nextSplice) ≤
        s.segStartCol + wrapping.avail s.segStartByte) :
    wrapping.Tight gs s.segs k gs.length (spliced (wrapping.splices.filter
      fun splice => colOf wrapping.tabstop gs k ≤ splice.1)) := by
  have cols := colOf_mono wrapping.tabstop gs (Nat.le_of_lt further)
  rcases walked.fits with lone | fits | ⟨-, carried⟩
  · exact Or.inl (by omega)
  · refine Or.inr (Or.inl ⟨by omega, fun anchored => ?_⟩)
    have behind : (wrapping.splices.drop s.nextSplice).filter
        (fun splice => colOf wrapping.tabstop gs k ≤ splice.1) =
        wrapping.splices.drop s.nextSplice := by
      apply List.filter_eq_self.2
      intro splice left
      exact decide_eq_true (walked.ahead (Nat.le_refl _) anchored (Nat.le_of_lt further) left)
    conv_lhs => rw [← List.take_append_drop s.nextSplice wrapping.splices]
    rw [List.filter_append, spliced_append, behind, ← walked.inline anchored]
    rw [walked.col, walked.rowCol, walked.rowByte] at narrow
    rcases Nat.eq_zero_or_pos (spliced (wrapping.splices.drop s.nextSplice)) with none_left | some_left
    · omega
    · have room := narrow some_left
      omega
  · exact Or.inr (Or.inr carried)

/-- The rows of a line: the closed ones, and the last, of text, or empty. -/
theorem Walked.finish (none_empty : [] ∉ gs) {s : Wrap}
    (walked : wrapping.Walked gs gs.length k s) :
    ∃ segs i, wrapping.finish (byteOf gs gs.length) s =
        segs ++ [⟨byteOf gs i, byteOf gs gs.length, colOf wrapping.tabstop gs i⟩] ∧
      i ≤ gs.length ∧ wrapping.Closed gs segs i ∧
      (i < gs.length → wrapping.Tight gs segs i gs.length (spliced (wrapping.splices.filter
        fun splice => colOf wrapping.tabstop gs i ≤ splice.1))) ∧
      (i < gs.length ∨ (gs = [] ∧ segs = []) ∨ (i = gs.length ∧
        ∃ splice ∈ wrapping.splices, 0 < splice.2 ∧
          ∀ i < gs.length, colOf wrapping.tabstop gs i < splice.1)) := by
  unfold Wrapping.finish
  simp only
  split
  · -- The splices past the text take a row of their own.
    next wide =>
      have begun : k < gs.length := walked.begun_of_byte wide.2.2
      refine ⟨s.segs ++ [⟨byteOf gs k, byteOf gs gs.length, colOf wrapping.tabstop gs k⟩],
        gs.length, ?_, Nat.le_refl _, ?_, fun none_left => absurd none_left (Nat.lt_irrefl _), ?_⟩
      · rw [walked.byte, walked.col, walked.rowByte, walked.rowCol]
      · exact .snoc walked.closed begun (Nat.le_refl _)
          (walked.tight (Nat.le_refl _) begun (Nat.le_refl _) fun _ => rfl)
      · refine Or.inr (Or.inr ⟨rfl, ?_⟩)
        by_contra none_wide
        have zero : spliced (wrapping.splices.drop s.nextSplice) = 0 := by
          apply List.sum_eq_zero
          intro cells member
          rcases List.mem_map.1 member with ⟨splice, left, same⟩
          by_contra some_cells
          exact none_wide ⟨splice, List.mem_of_mem_drop left, by omega, walked.placed.ahead splice left⟩
        omega
  · next narrow =>
      refine ⟨s.segs, k, by rw [walked.rowByte, walked.rowCol], walked.row_le, walked.closed, ?_, ?_⟩
      · intro further
        apply walked.last further
        intro some_left
        by_contra wide
        apply narrow
        refine ⟨some_left, Nat.lt_of_not_le wide, ?_⟩
        rw [walked.byte, walked.rowByte]
        exact byteOf_lt none_empty further (Nat.le_refl _)
      · rcases walked.begun with begun | ⟨zero, zero'⟩
        · exact Or.inl begun
        · refine Or.inr (Or.inl ⟨List.eq_nil_of_length_eq_zero zero', ?_⟩)
          exact (zero ▸ walked.closed).none_closed

/-! ### Rows of a line -/

theorem Closed.contiguous {i : Nat} (closed : wrapping.Closed gs segs i) :
    Contiguous 0 segs (byteOf gs i) := by
  induction closed with
  | nil => rfl
  | snoc _ _ _ _ ih => exact ih.snoc _ _

/-- Rows behind it change nothing for a row. -/
theorem Tight.more {i j inline : Nat} (tight : wrapping.Tight gs segs i j inline)
    (later : List WrapSeg) : wrapping.Tight gs (segs ++ later) i j inline := by
  rcases tight with lone | room | ⟨linebreak, begins, k, m, before, behind, stop, listed, room⟩
  · exact Or.inl lone
  · exact Or.inr (Or.inl room)
  · exact Or.inr (Or.inr ⟨linebreak, begins, k, m, before, behind, stop,
      List.mem_append_left _ listed, room⟩)

/-- What each closed row is. -/
theorem Closed.row {i : Nat} (closed : wrapping.Closed gs segs i) {seg : WrapSeg}
    (member : seg ∈ segs) : ∃ i j, i < j ∧ j ≤ gs.length ∧
      seg = ⟨byteOf gs i, byteOf gs j, colOf wrapping.tabstop gs i⟩ ∧
      wrapping.Tight gs segs i j
        (wrapping.anchoredFrom (colOf wrapping.tabstop gs i) (colOf wrapping.tabstop gs j)) := by
  induction closed with
  | nil => exact absurd member List.not_mem_nil
  | snoc _ further inside tight ih =>
      rcases List.mem_append.1 member with old | new
      · rcases ih old with ⟨i, j, further, inside, same, tight⟩
        exact ⟨i, j, further, inside, same, tight.more _⟩
      · exact ⟨_, _, further, inside, List.mem_singleton.1 new, tight.more _⟩

end Wrapping

/-- A segment of one grapheme. -/
def WrapSeg.Lone (line : Text) (seg : WrapSeg) : Prop :=
  ∃ front g back, Segmenter.graphemes line = front ++ g :: back ∧
    seg.startByte = size front.flatten ∧ seg.endByte = seg.startByte + size g

/-- The cells of a segment's text. -/
def WrapSeg.textCells (line : Text) (tabstop : Nat) (seg : WrapSeg) : Nat :=
  virtcol line seg.endByte tabstop - seg.startCol

/-- Splices anchored at the columns of bytes, or past the text: what `Buffer::inline_splices` yields. -/
def AtColumns (line : Text) (tabstop : Nat) (splices : List (Nat × Nat)) : Prop :=
  ∀ splice ∈ splices, (∃ byte, splice.1 = virtcol line byte tabstop) ∨
    virtcol line (size line) tabstop ≤ splice.1

/-- A segment of text fits its row, with the cells of splices: it is a lone grapheme, or the row is wide
enough, or it begins with a word that 'linebreak' carried down from the row before. -/
def Wrapping.Fits (wrapping : Wrapping) (line : Text) (rows : List WrapSeg) (seg : WrapSeg)
    (inline : Nat) : Prop :=
  seg.Lone line ∨
    (seg.textCells line wrapping.tabstop ≤ wrapping.avail seg.startByte ∧
      (AtColumns line wrapping.tabstop wrapping.splices →
        seg.textCells line wrapping.tabstop + inline ≤ wrapping.avail seg.startByte)) ∨
    ∃ i j, wrapping.Carried (Segmenter.graphemes line) rows i j ∧
      seg.startByte = byteOf (Segmenter.graphemes line) i ∧
      seg.endByte = byteOf (Segmenter.graphemes line) j

section Rows

variable [LawfulSegmenter]

open LawfulSegmenter (join nonempty)

theorem byteOf_length (line : Text) :
    byteOf (Segmenter.graphemes line) (Segmenter.graphemes line).length = size line := by
  rw [byteOf, List.take_length, join]

theorem virtcol_byteOf (line : Text) (i tabstop : Nat) :
    virtcol line (byteOf (Segmenter.graphemes line) i) tabstop =
      colOf tabstop (Segmenter.graphemes line) i := by
  rw [virtcol_eq, byteOf, upto_of_take (nonempty line), colOf]

omit [LawfulSegmenter] in
theorem isBoundary_byteOf (line : Text) (i : Nat) :
    isBoundary line (byteOf (Segmenter.graphemes line) i) = true :=
  isBoundary_iff.2 ⟨i, rfl⟩

variable {line : Text}

omit [LawfulSegmenter] in
/-- The cell of a grapheme is at its column. -/
theorem exists_colOf {tabstop : Nat} {cell : Cell} (laid : cell ∈ cells line tabstop) :
    ∃ i < (Segmenter.graphemes line).length,
      colOf tabstop (Segmenter.graphemes line) i = cell.col := by
  rcases mem_cellsFrom laid with ⟨i, inside, -, at_col⟩
  exact ⟨i, inside, at_col.symm⟩

theorem anchored_of_atColumns {wrapping : Wrapping}
    (columns : AtColumns line wrapping.tabstop wrapping.splices) :
    wrapping.Anchored (Segmenter.graphemes line) := by
  intro splice listed
  rcases columns splice listed with ⟨byte, same⟩ | past
  · have front := upto_front (Segmenter.graphemes line) byte
    refine Or.inl ⟨_, front.length_le, ?_⟩
    rw [same, virtcol_eq, colOf, ← List.prefix_iff_eq_take.1 front]
  · rw [← byteOf_length, virtcol_byteOf] at past
    exact Or.inr past

/-- A row of graphemes that is as it should be fits. -/
theorem Wrapping.Tight.fits {wrapping : Wrapping} {rows : List WrapSeg} {i j inline : Nat}
    (inside : i < (Segmenter.graphemes line).length)
    (tight : wrapping.Tight (Segmenter.graphemes line) rows i j inline) :
    wrapping.Fits line rows ⟨byteOf (Segmenter.graphemes line) i,
      byteOf (Segmenter.graphemes line) j, colOf wrapping.tabstop (Segmenter.graphemes line) i⟩
      inline := by
  rcases tight with lone | fits | carried
  · refine Or.inl ⟨(Segmenter.graphemes line).take i, (Segmenter.graphemes line)[i],
      (Segmenter.graphemes line).drop (i + 1), ?_, rfl, ?_⟩
    · rw [List.getElem_cons_drop, List.take_append_drop]
    · show byteOf _ j = byteOf _ i + _
      rw [lone, byteOf_succ inside]
  · apply Or.inr (Or.inl ?_)
    unfold WrapSeg.textCells
    rw [virtcol_byteOf]
    exact ⟨fits.1, fun columns => fits.2 (anchored_of_atColumns columns)⟩
  · exact Or.inr (Or.inr ⟨i, j, carried, rfl, rfl⟩)

/-- **Rows partition the line and fit.**  An empty last row holds splices past the text. -/
theorem wrap_rows_fit (line : Text) (tabstop width cont : Nat) (linebreak : Bool)
    (splices : List (Nat × Nat)) (room : 0 < width) (sorted : Ascending splices) :
    let wrapping := wrappingOf tabstop width cont linebreak splices
    ∃ rows last, wrapSegmentsIndented line tabstop width cont linebreak splices = rows ++ [last] ∧
      Contiguous 0 (rows ++ [last]) (size line) ∧
      (∀ seg ∈ rows ++ [last], isBoundary line seg.startByte = true ∧
        isBoundary line seg.endByte = true ∧ seg.startCol = virtcol line seg.startByte tabstop) ∧
      (∀ seg ∈ rows, seg.startByte < seg.endByte) ∧
      (last.startByte < last.endByte ∨ (line = [] ∧ rows = []) ∨ (last.startByte = size line ∧
        ∃ splice ∈ splices, 0 < splice.2 ∧ ∀ cell ∈ cells line tabstop, cell.col < splice.1)) ∧
      (∀ seg ∈ rows, wrapping.Fits line rows seg
        (wrapping.anchoredFrom seg.startCol (virtcol line seg.endByte tabstop))) ∧
      (last.startByte < last.endByte → wrapping.Fits line rows last
        (spliced (splices.filter fun splice => last.startCol ≤ splice.1))) := by
  intro wrapping
  have none_empty := nonempty line
  rcases wrapping.walked_line none_empty sorted with ⟨k, walked⟩
  rcases walked.finish none_empty with ⟨rows, i, finished, reached, closed, tight, last⟩
  refine ⟨rows, ⟨byteOf (Segmenter.graphemes line) i, byteOf (Segmenter.graphemes line)
      (Segmenter.graphemes line).length, colOf tabstop (Segmenter.graphemes line) i⟩,
    ?_, ?_, ?_, ?_, ?_, ?_, ?_⟩
  · unfold wrapSegmentsIndented
    rw [if_neg (Nat.ne_of_gt room), ← byteOf_length]
    exact finished
  · rw [← byteOf_length]
    exact closed.contiguous.snoc _ _
  · intro seg member
    have edges : ∃ i j, seg = ⟨byteOf (Segmenter.graphemes line) i,
        byteOf (Segmenter.graphemes line) j, colOf tabstop (Segmenter.graphemes line) i⟩ := by
      rcases List.mem_append.1 member with old | new
      · rcases closed.row old with ⟨i, j, -, -, same, -⟩
        exact ⟨i, j, same⟩
      · exact ⟨_, _, List.mem_singleton.1 new⟩
    rcases edges with ⟨i, j, same⟩
    rw [same]
    exact ⟨isBoundary_byteOf line i, isBoundary_byteOf line j, (virtcol_byteOf line i tabstop).symm⟩
  · intro seg member
    rcases closed.row member with ⟨i, j, further, inside, same, -⟩
    rw [same]
    exact byteOf_lt none_empty further inside
  · rcases last with further | ⟨empty, none_closed⟩ | ⟨whole, splice, listed, some_cells, past⟩
    · exact Or.inl (byteOf_lt none_empty further (Nat.le_refl _))
    · refine Or.inr (Or.inl ⟨?_, none_closed⟩)
      rw [← join line, empty, List.flatten_nil]
    · refine Or.inr (Or.inr ⟨?_, splice, listed, some_cells, ?_⟩)
      · show byteOf _ i = _
        rw [whole, byteOf_length]
      · intro cell laid
        rcases exists_colOf laid with ⟨i, inside, same⟩
        exact same ▸ past i inside
  · intro seg member
    rcases closed.row member with ⟨i, j, further, inside, same, tight⟩
    rw [same]
    show wrapping.Fits line rows _ (wrapping.anchoredFrom _ (virtcol line (byteOf _ j) tabstop))
    rw [virtcol_byteOf]
    exact tight.fits (Nat.lt_of_lt_of_le further inside)
  · intro some_text
    have further : i < (Segmenter.graphemes line).length := by
      by_contra none_left
      have later := byteOf_mono (Segmenter.graphemes line) (Nat.le_of_not_lt none_left)
      exact absurd some_text (Nat.not_lt.2 later)
    exact (tight further).fits further

end Rows

theorem WrapSeg.not_lone {line : Text} {seg : WrapSeg}
    (other : ∀ g ∈ Segmenter.graphemes line, seg.endByte ≠ seg.startByte + size g) :
    ¬ seg.Lone line := by
  rintro ⟨front, g, back, whole, -, stop⟩
  apply other g _ stop
  rw [whole]
  exact List.mem_append_right front List.mem_cons_self

end Walk

theorem wrap_rows_fit_scalars : letI := scalars
    Contiguous 0 (wrapSegmentsIndented ['a', ' ', 'b', '\t', 'c'] 4 3 1 true [(1, 2)]) 5 := by
  let _ := scalars
  have := scalars_lawful
  rcases wrap_rows_fit ['a', ' ', 'b', '\t', 'c'] 4 3 1 true [(1, 2)] (by decide)
    (List.pairwise_singleton _ _) with ⟨rows, last, same, contiguous, -⟩
  rw [same]
  exact contiguous

/-- A word of nine cells behind a short one. -/
def carriedLine : Text := ['a', ' ', 'b', 'c', 'd', 'e', 'f', 'g', 'h', 'i', 'j']

/-- A tab amid a line. -/
def tabbedLine : Text := ['a', '\t', 'b']

/-- Cells past the text get a row that may be too narrow; so may a carried word; and a splice inside a
tab is laid out behind it. -/
theorem rows_spill : letI := scalars
    ((⟨1, 1, 1⟩ ∈ wrapSegmentsIndented ['a'] 8 10 0 false [(1, 20)] ∧ ¬ WrapSeg.Lone ['a'] ⟨1, 1, 1⟩ ∧
      (wrappingOf 8 10 0 false [(1, 20)]).avail 1 < WrapSeg.textCells ['a'] 8 ⟨1, 1, 1⟩ +
        spliced ([(1, 20)].filter fun splice => 1 ≤ splice.1)) ∧
    (⟨2, 11, 2⟩ ∈ wrapSegmentsIndented carriedLine 8 10 8 true [] ∧ ¬ WrapSeg.Lone carriedLine ⟨2, 11, 2⟩ ∧
      (wrappingOf 8 10 8 true []).avail 2 < WrapSeg.textCells carriedLine 8 ⟨2, 11, 2⟩) ∧
    (⟨0, 2, 0⟩ ∈ wrapSegmentsIndented tabbedLine 8 8 0 false [(3, 5)] ∧ ¬ WrapSeg.Lone tabbedLine ⟨0, 2, 0⟩ ∧
      (wrappingOf 8 8 0 false [(3, 5)]).avail 0 < WrapSeg.textCells tabbedLine 8 ⟨0, 2, 0⟩ +
        (wrappingOf 8 8 0 false [(3, 5)]).anchoredFrom 0 8)) :=
  letI := scalars
  ⟨⟨by decide, WrapSeg.not_lone (by decide), by decide⟩,
    ⟨by decide, WrapSeg.not_lone (by decide), by decide⟩,
    ⟨by decide, WrapSeg.not_lone (by decide), by decide⟩⟩

end Bemtvi.Core.Columns
