/-
Module: Bemtvi.Lsp.SemanticTokensLaws
Purpose: A delta's edits, in any order, are spliced as if each were made for itself, and a token
  becomes a span of an existing line at the columns its running sums denote.
Trusted boundary: kernel-checked laws of the tokens
Main exports: splice_independent_iff, decodeTokens_fits, decodeTokens_uncut, tokens_sound
-/
import Bemtvi.Lsp.SemanticTokens
import Bemtvi.Lsp.PositionLaws
import Mathlib

namespace Bemtvi.Lsp.Semantic

open Utf8
open Bemtvi.Core (Buffer)

/-! ### Flat integers -/

theorem chunkTokens_flattenTokens (tokens : List SemanticToken) :
    chunkTokens (flattenTokens tokens) = tokens := by
  induction tokens with
  | nil => rfl
  | cons token tokens ih =>
      simp only [flattenTokens, List.flatMap_cons, List.cons_append, List.nil_append, chunkTokens]
      exact congrArg (token :: ·) ih

/-- An empty list of edits changes nothing. -/
theorem applyTokenEdits_nil (base : List SemanticToken) : applyTokenEdits base [] = base :=
  chunkTokens_flattenTokens base

/-! ### The order of the edits -/

/-- An edit starts before the next one, and is over by then as far as the array goes. -/
structure Before (length : Nat) (a b : SemanticTokensEdit) : Prop where
  start_le : a.start.toNat ≤ b.start.toNat
  ended : min (a.start.toNat + a.deleteCount.toNat) length ≤ b.start.toNat

variable {edit : SemanticTokensEdit} {edits : List SemanticTokensEdit} {place idx line : Nat}
  {old : List UInt32} {buffer : Buffer E} {decoder : Decoder} {encoding : PositionEncoding}
  {legend : SemanticLegend} {span : SemanticSpan} {tokens : List SemanticToken}

/-- A new edit goes where those on either side of it stay apart from it. -/
theorem before_orderedInsert {length : Nat} (ordered : edits.Pairwise (Before length))
    (below : ∀ other ∈ edits, other.start.toNat < edit.start.toNat → Before length other edit)
    (above : ∀ other ∈ edits, edit.start.toNat ≤ other.start.toNat → Before length edit other) :
    (edits.orderedInsert (fun a b => a.start.toNat ≤ b.start.toNat) edit).Pairwise
      (Before length) := by
  induction edits with
  | nil => simp
  | cons first edits ih =>
      obtain ⟨first_before, ordered_rest⟩ := List.pairwise_cons.1 ordered
      rw [List.orderedInsert_cons]
      split
      · next le =>
        apply List.pairwise_cons.2
        constructor
        · intro other member
          apply above other member
          rcases List.mem_cons.1 member with rfl | member
          · exact le
          · exact le.trans (first_before other member).start_le
        · exact ordered
      · next not_le =>
        apply List.pairwise_cons.2
        constructor
        · intro other member
          rcases (List.mem_orderedInsert _).1 member with rfl | member
          · exact below first List.mem_cons_self (by omega)
          · exact first_before other member
        · exact ih ordered_rest (fun other member => below other (List.mem_cons_of_mem _ member))
            (fun other member => above other (List.mem_cons_of_mem _ member))

theorem sortedEdits_before {length : Nat} (apart : edits.Pairwise Apart)
    (inserts : edits.Pairwise (InsertsFirst length)) :
    (sortedEdits edits).Pairwise (Before length) := by
  induction edits with
  | nil => exact List.Pairwise.nil
  | cons edit edits ih =>
      obtain ⟨edit_apart, apart⟩ := List.pairwise_cons.1 apart
      obtain ⟨edit_inserts, inserts⟩ := List.pairwise_cons.1 inserts
      apply before_orderedInsert (ih apart inserts)
      · intro other member lt
        have member := (List.mem_insertionSort _).1 member
        have := edit_apart other member
        unfold Apart at this
        exact ⟨Nat.le_of_lt lt, by omega⟩
      · intro other member le
        have member := (List.mem_insertionSort _).1 member
        have away := edit_apart other member
        unfold Apart at away
        refine ⟨le, ?_⟩
        by_cases same : edit.start = other.start
        · rcases edit_inserts other member same with none_deleted | past
          · rw [none_deleted, same]
            exact Nat.min_le_left _ _
          · exact (Nat.min_le_right _ _).trans (past.trans le)
        · have : edit.start.toNat ≠ other.start.toNat := fun equal =>
            same (UInt32.toNat_inj.1 equal)
          omega

/-! ### Piece by piece -/

/-- The integers of a run of places. -/
theorem flatMap_getElem (old : List UInt32) (idx count : Nat) :
    ((List.range' idx count).flatMap fun place => (old[place]?).toList) =
      (old.drop idx).take count := by
  induction count generalizing idx with
  | zero => simp
  | succ count ih =>
      rw [List.range'_succ, List.flatMap_cons, ih]
      by_cases inside : idx < old.length
      · rw [List.getElem?_eq_getElem inside, List.drop_eq_getElem_cons inside, List.take_succ_cons]
        rfl
      · have past : old.length ≤ idx := Nat.le_of_not_lt inside
        simp [List.getElem?_eq_none past, List.drop_eq_nil_of_le past,
          List.drop_eq_nil_of_le (past.trans (Nat.le_succ idx))]

theorem covers_iff : edit.covers place = true ↔
      edit.start.toNat ≤ place ∧ place < edit.start.toNat + edit.deleteCount.toNat := by
  simp [SemanticTokensEdit.covers]

/-- Nothing changes before the edits. -/
theorem pieceAt_before (before : ∀ edit ∈ edits, place < edit.from_ old.length) :
    pieceAt old edits place = (old[place]?).toList := by
  have none_starts : (edits.filter fun edit => edit.from_ old.length = place) = [] := by
    apply List.filter_eq_nil_iff.2
    intro edit member
    have := before edit member
    simp only [decide_eq_true_eq]
    omega
  have none_covers : (edits.any fun edit => edit.covers place) = false := by
    apply List.any_eq_false.2
    intro edit member covered
    have starts := before edit member
    have covered := covers_iff.1 covered
    unfold SemanticTokensEdit.from_ at starts
    omega
  simp [pieceAt, none_starts, none_covers]

/-- The pieces behind an edit do not know of it. -/
theorem pieceAt_after (starts : edit.from_ old.length < place)
    (deleted : min (edit.start.toNat + edit.deleteCount.toNat) old.length ≤ place) :
    pieceAt old (edit :: edits) place = pieceAt old edits place := by
  have other : ¬ edit.from_ old.length = place := by omega
  by_cases covered : edit.covers place = true
  · have := (covers_iff.1 covered).2
    have past : old[place]? = none := List.getElem?_eq_none (by omega)
    simp [pieceAt, other, past]
  · simp [pieceAt, other, covered]

/-- The pieces from an edit on: what it puts in, then those behind what it deletes. -/
theorem pieces_cons (before : ∀ other ∈ edits, Before old.length edit other) :
    (List.range' (edit.from_ old.length) (old.length + 1 - edit.from_ old.length)).flatMap
        (pieceAt old (edit :: edits)) =
      edit.integers ++
        (List.range' (min (edit.from_ old.length + edit.deleteCount.toNat) old.length)
          (old.length + 1 - min (edit.from_ old.length + edit.deleteCount.toNat) old.length)).flatMap
          (pieceAt old edits) := by
  have start_le : edit.from_ old.length ≤ old.length := Nat.min_le_right _ _
  have start_min : edit.from_ old.length = min edit.start.toNat old.length := rfl
  generalize start_eq : edit.from_ old.length = start at *
  generalize stop_eq : min (start + edit.deleteCount.toNat) old.length = stop
  have behind : ∀ place, start < place → stop ≤ place →
      pieceAt old (edit :: edits) place = pieceAt old edits place := by
    intro place starts deleted
    exact pieceAt_after (start_eq ▸ starts) (by omega)
  by_cases empty : stop = start
  · -- nothing of the array is deleted: the place keeps the pieces of the later edits
    have here : pieceAt old (edit :: edits) start = edit.integers ++ pieceAt old edits start := by
      by_cases covered : edit.covers start = true
      · have := covers_iff.1 covered
        have past : old[start]? = none := List.getElem?_eq_none (by omega)
        simp [pieceAt, start_eq, past]
      · simp [pieceAt, start_eq, covered]
    have count : old.length + 1 - start = (old.length - start) + 1 := by omega
    rw [empty, count, List.range'_succ, List.flatMap_cons, List.flatMap_cons, here,
      List.append_assoc]
    congr 2
    apply List.flatMap_congr
    intro place member
    have := (List.mem_range'_1.1 member).1
    exact behind place (by omega) (by omega)
  · have later : ∀ place, start ≤ place → place < stop → ∀ other ∈ edits,
        place < other.from_ old.length := by
      intro place _ lt other member
      have := (before other member).ended
      unfold SemanticTokensEdit.from_
      omega
    have covered : ∀ place, start ≤ place → place < stop → edit.covers place = true := by
      intro place le lt
      apply covers_iff.2
      omega
    have here : pieceAt old (edit :: edits) start = edit.integers := by
      have none_starts : (edits.filter fun other => other.from_ old.length = start) = [] := by
        apply List.filter_eq_nil_iff.2
        intro other member
        have := later start (Nat.le_refl _) (by omega) other member
        simp only [decide_eq_true_eq]
        omega
      simp [pieceAt, start_eq, none_starts, covered start (Nat.le_refl _) (by omega)]
    have between : ∀ place, start < place → place < stop →
        pieceAt old (edit :: edits) place = [] := by
      intro place lt lt_stop
      have none_starts : (edits.filter fun other => other.from_ old.length = place) = [] := by
        apply List.filter_eq_nil_iff.2
        intro other member
        have := later place (by omega) lt_stop other member
        simp only [decide_eq_true_eq]
        omega
      have other : ¬ start = place := by omega
      simp [pieceAt, start_eq, other, none_starts, covered place (by omega) lt_stop]
    have split : List.range' start (old.length + 1 - start) =
        start :: (List.range' (start + 1) (stop - (start + 1)) ++
          List.range' stop (old.length + 1 - stop)) := by
      have count : old.length + 1 - start = (old.length - start) + 1 := by omega
      have sum : old.length - start = (stop - (start + 1)) + (old.length + 1 - stop) := by omega
      have from_stop : start + 1 + (stop - (start + 1)) = stop := by omega
      rw [count, List.range'_succ, sum, ← List.range'_append_1, from_stop]
    have gone : (List.range' (start + 1) (stop - (start + 1))).flatMap
        (pieceAt old (edit :: edits)) = [] := by
      apply List.flatMap_eq_nil_iff.2
      intro place member
      have := List.mem_range'_1.1 member
      exact between place (by omega) (by omega)
    rw [split, List.flatMap_cons, List.flatMap_append, here, gone, List.nil_append]
    congr 1
    apply List.flatMap_congr
    intro place member
    have := (List.mem_range'_1.1 member).1
    exact behind place (by omega) (by omega)

/-- The loop, from any place on. -/
theorem foldl_applyEdit (ordered : edits.Pairwise (Before old.length)) {out : List UInt32}
    (inside : idx ≤ old.length) (ahead : ∀ edit ∈ edits, idx ≤ edit.from_ old.length) :
    (edits.foldl (applyEdit old) (out, idx)).1 ++
        old.drop (edits.foldl (applyEdit old) (out, idx)).2 =
      out ++ (List.range' idx (old.length + 1 - idx)).flatMap (pieceAt old edits) := by
  induction edits generalizing out idx with
  | nil =>
      have plain : pieceAt old [] = fun place => (old[place]?).toList := by
        funext place
        simp [pieceAt]
      rw [plain, flatMap_getElem, List.take_of_length_le]
      · rfl
      · rw [List.length_drop]
        omega
  | cons edit edits ih =>
      obtain ⟨before, ordered⟩ := List.pairwise_cons.1 ordered
      have reached := ahead edit List.mem_cons_self
      have start_le : edit.from_ old.length ≤ old.length := Nat.min_le_right _ _
      have split : List.range' idx (old.length + 1 - idx) =
          List.range' idx (edit.from_ old.length - idx) ++
            List.range' (edit.from_ old.length) (old.length + 1 - edit.from_ old.length) := by
        have sum : old.length + 1 - idx =
            (edit.from_ old.length - idx) + (old.length + 1 - edit.from_ old.length) := by omega
        have from_start : idx + (edit.from_ old.length - idx) = edit.from_ old.length := by omega
        rw [sum, ← List.range'_append_1, from_start]
      have untouched : (List.range' idx (edit.from_ old.length - idx)).flatMap
          (pieceAt old (edit :: edits)) = (old.drop idx).take (edit.from_ old.length - idx) := by
        rw [← flatMap_getElem]
        apply List.flatMap_congr
        intro place member
        have bounds := List.mem_range'_1.1 member
        apply pieceAt_before
        intro other member
        rcases List.mem_cons.1 member with rfl | member
        · omega
        · have := (before other member).start_le
          unfold SemanticTokensEdit.from_ at *
          omega
      have run : (if idx < edit.from_ old.length then
          (old.drop idx).take (edit.from_ old.length - idx) else []) =
            (old.drop idx).take (edit.from_ old.length - idx) := by
        split
        · rfl
        · have none_left : edit.from_ old.length - idx = 0 := by omega
          rw [none_left, List.take_zero]
      have step : applyEdit old (out, idx) edit =
          (out ++ (old.drop idx).take (edit.from_ old.length - idx) ++ edit.integers,
            min (edit.from_ old.length + edit.deleteCount.toNat) old.length) := by
        simp only [applyEdit, run]
      rw [List.foldl_cons, step, ih ordered (Nat.min_le_right _ _), split, List.flatMap_append,
        untouched, pieces_cons before]
      · simp only [List.append_assoc]
      · intro other member
        have := before other member
        have start_before := this.start_le
        have ended := this.ended
        unfold SemanticTokensEdit.from_
        omega

/-- Edits apart from each other are made as if each were made for itself. -/
theorem splice_independent (apart : edits.Pairwise Apart)
    (inserts : edits.Pairwise (InsertsFirst old.length)) :
    spliceIntegers old edits = spliceIndependently old edits :=
  foldl_applyEdit (sortedEdits_before apart inserts) (Nat.zero_le _) fun _ _ => Nat.zero_le _

/-! ### How much is spliced -/

/-- How many integers an edit deletes of an array. -/
def SemanticTokensEdit.deletes (edit : SemanticTokensEdit) (length : Nat) : Nat :=
  min (edit.start.toNat + edit.deleteCount.toNat) length - edit.from_ length

/-- How many integers the loop copies although it has passed them, from a place on. -/
def reread (length : Nat) : Nat → List SemanticTokensEdit → Nat
  | _, [] => 0
  | idx, edit :: edits =>
      (idx - edit.from_ length) +
        reread length (min (edit.from_ length + edit.deleteCount.toNat) length) edits

/-- What the loop leaves, counted: what it copies again is too much. -/
theorem length_foldl_applyEdit (old : List UInt32) (edits : List SemanticTokensEdit)
    (out : List UInt32) (inside : idx ≤ old.length) :
    ((edits.foldl (applyEdit old) (out, idx)).1 ++
        old.drop (edits.foldl (applyEdit old) (out, idx)).2).length +
          (edits.map (·.deletes old.length)).sum =
      out.length + (old.length - idx) + (edits.map (·.integers.length)).sum +
        reread old.length idx edits := by
  induction edits generalizing out idx with
  | nil =>
      rw [List.foldl_nil, List.length_append, List.length_drop]
      rfl
  | cons edit edits ih =>
      have start_le : edit.from_ old.length ≤ old.length := Nat.min_le_right _ _
      have start_min : edit.from_ old.length = min edit.start.toNat old.length := rfl
      have run : (if idx < edit.from_ old.length then
          (old.drop idx).take (edit.from_ old.length - idx) else []).length =
            edit.from_ old.length - idx := by
        split
        · rw [List.length_take, List.length_drop]
          omega
        · rw [List.length_nil]
          omega
      rw [List.foldl_cons, applyEdit]
      have next_le : min (edit.from_ old.length + edit.deleteCount.toNat) old.length ≤ old.length :=
        Nat.min_le_right _ _
      have rest := ih (out ++ (if idx < edit.from_ old.length then
          (old.drop idx).take (edit.from_ old.length - idx) else []) ++ edit.integers) next_le
      simp only [List.length_append, run, List.map_cons, List.sum_cons, reread,
        SemanticTokensEdit.deletes] at rest ⊢
      omega

theorem sum_covered (low high start count : Nat) :
    ((List.range' start count).map fun place =>
      if low ≤ place ∧ place < high then 1 else 0).sum =
        min high (start + count) - max low start := by
  induction count generalizing start with
  | zero =>
      simp only [List.range'_zero, List.map_nil, List.sum_nil]
      omega
  | succ count ih =>
      rw [List.range'_succ, List.map_cons, List.sum_cons, ih]
      split <;> omega

theorem sum_at (amount place start count : Nat) :
    ((List.range' start count).map fun other => if place = other then amount else 0).sum =
      if start ≤ place ∧ place < start + count then amount else 0 := by
  induction count generalizing start with
  | zero =>
      rw [List.range'_zero, List.map_nil, List.sum_nil, if_neg (by omega)]
  | succ count ih =>
      rw [List.range'_succ, List.map_cons, List.sum_cons, ih]
      split
      · rw [if_neg (by omega), if_pos (by omega), Nat.add_zero]
      · split
        · rw [if_pos (by omega), Nat.zero_add]
        · rw [if_neg (by omega)]

/-- One more edit, at one place: what it puts in, and the integer it deletes there. -/
theorem length_pieceAt_cons (old : List UInt32) (apart : ∀ other ∈ edits, Apart edit other)
    (place : Nat) : (pieceAt old (edit :: edits) place).length +
        (if edit.start.toNat ≤ place ∧
          place < min (edit.start.toNat + edit.deleteCount.toNat) old.length then 1 else 0) =
      (pieceAt old edits place).length +
        if edit.from_ old.length = place then edit.integers.length else 0 := by
  have put : ((edit :: edits).filter fun edit => edit.from_ old.length = place).flatMap
      SemanticTokensEdit.integers =
        (if edit.from_ old.length = place then edit.integers else []) ++
          (edits.filter fun edit => edit.from_ old.length = place).flatMap
            SemanticTokensEdit.integers := by
    by_cases here : edit.from_ old.length = place <;> simp [here]
  have put_length : (if edit.from_ old.length = place then edit.integers else []).length =
      if edit.from_ old.length = place then edit.integers.length else 0 := by
    split <;> rfl
  rw [pieceAt, pieceAt, put, List.any_cons]
  simp only [List.length_append, put_length]
  by_cases covered : edit.covers place = true
  · have bounds := covers_iff.1 covered
    have others : (edits.any fun edit => edit.covers place) = false := by
      apply List.any_eq_false.2
      intro other member covered'
      have away := apart other member
      have bounds' := covers_iff.1 covered'
      unfold Apart at away
      omega
    rw [covered, others, Bool.true_or, if_pos rfl, if_neg Bool.false_ne_true, List.length_nil]
    by_cases inside : place < old.length
    · have deleted : edit.start.toNat ≤ place ∧
          place < min (edit.start.toNat + edit.deleteCount.toNat) old.length := by omega
      have one : (old[place]?).toList.length = 1 := by
        rw [List.getElem?_eq_getElem inside]
        rfl
      rw [if_pos deleted, one]
      omega
    · have outside : ¬ (edit.start.toNat ≤ place ∧
          place < min (edit.start.toNat + edit.deleteCount.toNat) old.length) := by omega
      have none_there : (old[place]?).toList.length = 0 := by
        rw [List.getElem?_eq_none (Nat.le_of_not_lt inside)]
        rfl
      rw [if_neg outside, none_there]
      omega
  · have outside : ¬ (edit.start.toNat ≤ place ∧
        place < min (edit.start.toNat + edit.deleteCount.toNat) old.length) := by
      intro bounds
      exact covered (covers_iff.2 ⟨bounds.1, by omega⟩)
    rw [if_neg outside, Bool.eq_false_iff.2 covered, Bool.false_or]
    omega

/-- What edits apart from each other leave, each made for itself, counted. -/
theorem length_spliceIndependently (old : List UInt32) (apart : edits.Pairwise Apart) :
    ((List.range' 0 (old.length + 1)).flatMap (pieceAt old edits)).length +
        (edits.map (·.deletes old.length)).sum =
      old.length + (edits.map (·.integers.length)).sum := by
  induction edits with
  | nil =>
      have plain : pieceAt old [] = fun place => (old[place]?).toList := by
        funext place
        simp [pieceAt]
      rw [plain, flatMap_getElem, List.drop_zero, List.take_of_length_le (Nat.le_succ _)]
      rfl
  | cons edit edits ih =>
      obtain ⟨edit_apart, apart⟩ := List.pairwise_cons.1 apart
      have start_min : edit.from_ old.length = min edit.start.toNat old.length := rfl
      have each := congrArg List.sum (List.map_congr_left
        (l := List.range' 0 (old.length + 1)) fun place _ =>
          length_pieceAt_cons old edit_apart place)
      rw [List.sum_map_add, List.sum_map_add, sum_covered, sum_at, if_pos (by omega)] at each
      have rest := ih apart
      rw [List.length_flatMap] at rest ⊢
      simp only [List.map_cons, List.sum_cons, SemanticTokensEdit.deletes] at each rest ⊢
      omega

/-! ### When nothing is copied again -/

theorem sortedEdits_sorted (edits : List SemanticTokensEdit) :
    (sortedEdits edits).Pairwise fun a b => a.start.toNat ≤ b.start.toNat := by
  have total : Std.Total fun a b : SemanticTokensEdit => a.start.toNat ≤ b.start.toNat :=
    ⟨fun _ _ => Nat.le_total _ _⟩
  have trans : IsTrans SemanticTokensEdit fun a b => a.start.toNat ≤ b.start.toNat :=
    ⟨fun _ _ _ => Nat.le_trans⟩
  exact List.pairwise_insertionSort _ _

/-- A loop over sorted edits that copies nothing again meets insertions first. -/
theorem insertsFirst_of_reread {length : Nat}
    (sorted : edits.Pairwise fun a b => a.start.toNat ≤ b.start.toNat)
    (never : reread length idx edits = 0) : edits.Pairwise (InsertsFirst length) := by
  induction edits generalizing idx with
  | nil => exact List.Pairwise.nil
  | cons edit edits ih =>
      obtain ⟨below, sorted⟩ := List.pairwise_cons.1 sorted
      rw [reread, Nat.add_eq_zero_iff] at never
      refine List.pairwise_cons.2 ⟨?_, ih sorted never.2⟩
      intro other member same
      cases edits with
      | nil => cases member
      | cons next edits =>
          -- The next edit starts where this one does, and is not behind what this one deletes.
          have next_le : next.start.toNat ≤ other.start.toNat := by
            rcases List.mem_cons.1 member with rfl | later
            · exact Nat.le_refl _
            · exact (List.pairwise_cons.1 sorted).1 other later
          have le_next := below next List.mem_cons_self
          have reached := never.2
          rw [reread, Nat.add_eq_zero_iff] at reached
          rw [← same] at next_le
          have ended := reached.1
          unfold SemanticTokensEdit.from_ at ended
          by_cases nothing : edit.deleteCount.toNat = 0
          · exact Or.inl (UInt32.toNat_inj.1 nothing)
          · exact Or.inr (by omega)

/-- The sort is stable, so what holds of the sorted edits in order holds of the given ones. -/
theorem pairwise_of_orderedInsert {R : SemanticTokensEdit → SemanticTokensEdit → Prop}
    (pairwise : (edits.orderedInsert (fun a b => a.start.toNat ≤ b.start.toNat) edit).Pairwise R) :
    edits.Pairwise R ∧
      ∀ other ∈ edits, edit.start.toNat ≤ other.start.toNat → R edit other := by
  induction edits with
  | nil => exact ⟨List.Pairwise.nil, fun other member => by cases member⟩
  | cons first edits ih =>
      rw [List.orderedInsert_cons] at pairwise
      split at pairwise
      · obtain ⟨before, rest⟩ := List.pairwise_cons.1 pairwise
        exact ⟨rest, fun other member _ => before other member⟩
      · next greater =>
        obtain ⟨before, rest⟩ := List.pairwise_cons.1 pairwise
        obtain ⟨inner, above⟩ := ih rest
        refine ⟨List.pairwise_cons.2 ⟨?_, inner⟩, ?_⟩
        · intro other member
          exact before other ((List.mem_orderedInsert _).2 (Or.inr member))
        · intro other member le
          rcases List.mem_cons.1 member with rfl | later
          · exact absurd le greater
          · exact above other later le

theorem insertsFirst_of_sorted {length : Nat}
    (inserts : (sortedEdits edits).Pairwise (InsertsFirst length)) :
    edits.Pairwise (InsertsFirst length) := by
  induction edits with
  | nil => exact List.Pairwise.nil
  | cons edit edits ih =>
      obtain ⟨rest, above⟩ := pairwise_of_orderedInsert inserts
      refine List.pairwise_cons.2 ⟨?_, ih rest⟩
      intro other member same
      exact above other ((List.mem_insertionSort _).2 member) (by rw [same]) same

/-- **Edits apart from each other are spliced as if each were made for itself if and only if
insertions come first.**  Otherwise a run that was deleted is copied after all. -/
theorem splice_independent_iff (apart : edits.Pairwise Apart) :
    spliceIntegers old edits = spliceIndependently old edits ↔
      edits.Pairwise (InsertsFirst old.length) := by
  constructor
  · intro same
    have sorted_apart : (sortedEdits edits).Pairwise Apart :=
      (List.perm_insertionSort _ edits).symm.pairwise apart fun away => away.symm
    have counted := length_foldl_applyEdit old (sortedEdits edits) [] (Nat.zero_le old.length)
    have counted' := length_spliceIndependently old sorted_apart
    have lengths : (spliceIntegers old edits).length = (spliceIndependently old edits).length :=
      congrArg List.length same
    simp only [spliceIntegers, spliceIndependently] at lengths
    rw [List.length_nil] at counted
    have never : reread old.length 0 (sortedEdits edits) = 0 := by omega
    exact insertsFirst_of_sorted (insertsFirst_of_reread (sortedEdits_sorted edits) never)
  · exact splice_independent apart

/-- No edit leads past the end of the array. -/
theorem foldl_applyEdit_le (old : List UInt32) (edits : List SemanticTokensEdit)
    {state : List UInt32 × Nat} (inside : state.2 ≤ old.length) :
    (edits.foldl (applyEdit old) state).2 ≤ old.length := by
  induction edits generalizing state with
  | nil => exact inside
  | cons edit edits ih => exact ih (Nat.min_le_right _ _)

/-! ### Spans -/

variable {E : Type}

/-- The decoder stands at the running sums, cut at the greatest `u32`, and keeps the columns of the
line they are of. -/
structure Tracks (buffer : Buffer E) (decoder : Decoder) (line start : Nat) : Prop where
  line_eq : decoder.line = min line maxU32
  start_eq : decoder.startChar = min start maxU32
  cols_eq : ∀ row cols, decoder.cols = some (row, cols) → cols = LineCols.new (buffer.lineCow row)

theorem Tracks.lineCols_eq {start : Nat} (tracks : Tracks buffer decoder line start) (row : Nat) :
    decoder.lineCols buffer row = LineCols.new (buffer.lineCow row) := by
  unfold Decoder.lineCols
  split
  · next at_ cols kept =>
    split
    · next same => exact same ▸ tracks.cols_eq at_ cols kept
    · rfl
  · rfl

theorem saturatingAdd_min (a b : Nat) : saturatingAdd (min a maxU32) b = min (a + b) maxU32 := by
  unfold saturatingAdd
  omega

theorem toNat_le_maxU32 (n : UInt32) : n.toNat ≤ maxU32 := by
  have := n.toNat_lt
  unfold maxU32
  omega

/-- One token adds the span of its place. -/
theorem decodeToken_step (legend : SemanticLegend) (encoding : PositionEncoding) {start : Nat}
    (tracks : Tracks buffer decoder line start) (tok : SemanticToken) {line' start' : Nat}
    (line_eq : line' = line + tok.deltaLine.toNat) (start_eq : start' =
      if 0 < tok.deltaLine.toNat then tok.deltaStart.toNat else start + tok.deltaStart.toNat) :
    Tracks buffer (decodeToken legend encoding buffer decoder tok) line' start' ∧
      ∀ row, (decodeToken legend encoding buffer decoder tok).spans row =
        decoder.spans row ++ (spanAt legend encoding buffer row (line', start', tok)).toList := by
  have line_now : (if 0 < tok.deltaLine.toNat then
      saturatingAdd decoder.line tok.deltaLine.toNat else decoder.line) = min line' maxU32 := by
    rw [line_eq, tracks.line_eq]
    split
    · exact saturatingAdd_min line _
    · next still =>
      have : tok.deltaLine.toNat = 0 := by omega
      rw [this, Nat.add_zero]
  have start_now : (if 0 < tok.deltaLine.toNat then tok.deltaStart.toNat
      else saturatingAdd decoder.startChar tok.deltaStart.toNat) = min start' maxU32 := by
    rw [start_eq, tracks.start_eq]
    split
    · exact (Nat.min_eq_left (toNat_le_maxU32 _)).symm
    · exact saturatingAdd_min start _
  have cols_now : Decoder.lineCols { decoder with
      line := min line' maxU32, startChar := min start' maxU32 } buffer (min line' maxU32) =
        LineCols.new (buffer.lineCow (min line' maxU32)) := tracks.lineCols_eq _
  simp only [decodeToken, line_now, start_now, cols_now]
  split
  · next empty =>
    constructor
    · exact ⟨rfl, rfl, tracks.cols_eq⟩
    · intro row
      simp [spanAt, empty]
  · split
    · next beyond =>
      constructor
      · exact ⟨rfl, rfl, tracks.cols_eq⟩
      · intro row
        have none_there : ¬ (min line' maxU32 = row ∧ row < buffer.lineCount) := by omega
        have : spanAt legend encoding buffer row (line', start', tok) = none := by
          rw [spanAt, if_neg]
          rintro ⟨here, inside, -⟩
          exact none_there ⟨here, inside⟩
        simp [this]
    · next within =>
      have kept : ∀ row cols, some (min line' maxU32,
          LineCols.new (buffer.lineCow (min line' maxU32))) = some (row, cols) →
            cols = LineCols.new (buffer.lineCow row) := by
        intro row cols same
        simp only [Option.some.injEq, Prod.mk.injEq] at same
        rw [← same.1, ← same.2]
      simp only [LineCols.byte_eq, saturatingAdd_min]
      split
      · next flat =>
        constructor
        · exact ⟨rfl, rfl, kept⟩
        · intro row
          have : spanAt legend encoding buffer row (line', start', tok) = none := by
            rw [spanAt, if_neg]
            rintro ⟨rfl, _, lt⟩
            omega
          simp [this]
      · next rises =>
        have span_eq : ∀ row, spanAt legend encoding buffer row (line', start', tok) =
            if min line' maxU32 = row then
              (classify tok legend).map fun parts =>
                ⟨columnByte encoding (buffer.lineCow row) (min start' maxU32),
                  columnByte encoding (buffer.lineCow row)
                    (min (start' + tok.length.toNat) maxU32), parts.2.2, parts.1, parts.2.1⟩
            else none := by
          intro row
          rw [spanAt]
          by_cases here : min line' maxU32 = row
          · subst here
            rw [if_pos ⟨rfl, by omega, by omega⟩, if_pos rfl]
          · rw [if_neg here, if_neg (fun all => here all.1)]
        rcases classified : classify tok legend with _ | ⟨ty, mods, groups⟩
        · constructor
          · exact ⟨rfl, rfl, kept⟩
          · intro row
            simp [span_eq, classified]
        · constructor
          · exact ⟨rfl, rfl, kept⟩
          · intro row
            rw [span_eq, classified]
            by_cases here : min line' maxU32 = row
            · subst here
              simp
            · have elsewhere : row ≠ min line' maxU32 := fun same => here same.symm
              simp [here, Function.update_of_ne elsewhere]

/-- The spans of a row, token by token. -/
theorem foldl_decodeToken {start : Nat} (tracks : Tracks buffer decoder line start)
    (tokens : List SemanticToken) (row : Nat) :
    (tokens.foldl (decodeToken legend encoding buffer) decoder).spans row =
      decoder.spans row ++
        (absoluteFrom line start tokens).filterMap (spanAt legend encoding buffer row) := by
  induction tokens generalizing decoder line start with
  | nil => simp [absoluteFrom]
  | cons tok tokens ih =>
      obtain ⟨tracks', added⟩ :=
        decodeToken_step legend encoding tracks tok rfl rfl
      rw [List.foldl_cons, ih tracks', added, absoluteFrom, List.filterMap_cons]
      rcases spanAt legend encoding buffer row _ with _ | span
      · simp
      · simp

theorem tracks_start (buffer : Buffer E) : Tracks buffer ⟨fun _ => [], 0, 0, none⟩ 0 0 where
  line_eq := rfl
  start_eq := rfl
  cols_eq := by
    intro row cols none_kept
    cases none_kept

/-- The spans of a row are those of the absolute places. -/
theorem decodeTokens_eq (tokens : List SemanticToken) (legend : SemanticLegend)
    (encoding : PositionEncoding) (buffer : Buffer E) (row : Nat) :
    decodeTokens tokens legend encoding buffer row =
      (absoluteFrom 0 0 tokens).filterMap (spanAt legend encoding buffer row) :=
  foldl_decodeToken (tracks_start buffer) tokens row

theorem isCharBoundary_columnByte (encoding : PositionEncoding) (line : Text) (character : Nat) :
    isCharBoundary line (columnByte encoding line character) = true := by
  obtain ⟨front, back, whole, sized⟩ := cut_columnByte encoding line character
  exact isCharBoundary_iff.2 ⟨front, back, whole, sized⟩

/-- A span lies between characters of an existing line, where a token's place says. -/
structure SpanFits (encoding : PositionEncoding) (buffer : Buffer E) (tokens : List SemanticToken)
    (row : Nat) (span : SemanticSpan) : Prop where
  line_exists : row < buffer.lineCount
  rises : span.start < span.end_
  inside : span.end_ ≤ size (buffer.lineCow row)
  start_boundary : isCharBoundary (buffer.lineCow row) span.start = true
  end_boundary : isCharBoundary (buffer.lineCow row) span.end_ = true
  of_token : ∃ line character tok, (line, character, tok) ∈ absoluteFrom 0 0 tokens ∧
    row = min line maxU32 ∧
    span.start = columnByte encoding (buffer.lineCow row) (min character maxU32) ∧
    span.end_ =
      columnByte encoding (buffer.lineCow row) (min (character + tok.length.toNat) maxU32)

/-- Every span of a row fits it. -/
theorem decodeTokens_fits {row : Nat}
    (member : span ∈ decodeTokens tokens legend encoding buffer row) :
    SpanFits encoding buffer tokens row span := by
  rw [decodeTokens_eq] at member
  obtain ⟨⟨line, character, tok⟩, listed, found⟩ := List.mem_filterMap.1 member
  rw [spanAt] at found
  split at found
  · next here =>
    obtain ⟨row_eq, exists_, rises⟩ := here
    obtain ⟨⟨ty, mods, groups⟩, _, rfl⟩ := Option.map_eq_some_iff.1 found
    exact {
      line_exists := exists_
      rises := rises
      inside := columnByte_le_size _ _ _
      start_boundary := isCharBoundary_columnByte _ _ _
      end_boundary := isCharBoundary_columnByte _ _ _
      of_token := ⟨line, character, tok, listed, row_eq.symm, rfl, rfl⟩ }
  · cases found

/-- A column that counts past the greatest `u32` only past its line is not cut. -/
theorem columnByte_uncut (encoding : PositionEncoding) {line : Text} {character : Nat}
    (uncut : character ≤ maxU32 ∨ size line ≤ maxU32) :
    columnByte encoding line (min character maxU32) = columnByte encoding line character := by
  rcases Nat.le_total character maxU32 with small | large
  · rw [Nat.min_eq_left small]
  · rcases uncut with exact_sum | short
    · rw [Nat.min_eq_left exact_sum]
    · rw [Nat.min_eq_right large, columnByte_of_size_le encoding short,
        columnByte_of_size_le encoding (short.trans large)]

/-- Where no sum is cut, every span lies at the running sums themselves. -/
theorem decodeTokens_uncut (uncut : Uncut buffer tokens) {row : Nat}
    (member : span ∈ decodeTokens tokens legend encoding buffer row) :
    ∃ place ∈ absoluteFrom 0 0 tokens, row = place.1 ∧
      span.start = columnByte encoding (buffer.lineCow row) place.2.1 ∧
      span.end_ = columnByte encoding (buffer.lineCow row) (place.2.1 + place.2.2.length.toNat) := by
  rw [decodeTokens_eq] at member
  obtain ⟨⟨line, character, tok⟩, listed, found⟩ := List.mem_filterMap.1 member
  obtain ⟨lines, columns⟩ := uncut _ listed
  rw [spanAt] at found
  split at found
  · next here =>
    obtain ⟨row_eq, exists_, -⟩ := here
    obtain ⟨⟨ty, mods, groups⟩, _, rfl⟩ := Option.map_eq_some_iff.1 found
    have line_eq : row = line := by
      simp only at lines
      omega
    subst line_eq
    refine ⟨_, listed, rfl, ?_, ?_⟩
    · apply columnByte_uncut
      exact columns.imp (fun small => (Nat.le_add_right _ _).trans small) id
    · exact columnByte_uncut encoding columns
  · cases found

/-- Wherever decoding has got to, its sums are `u32`s. -/
theorem foldl_decodeToken_le (legend : SemanticLegend) (encoding : PositionEncoding)
    (buffer : Buffer E) {start : Nat} (tracks : Tracks buffer decoder line start)
    (tokens : List SemanticToken) :
    (tokens.foldl (decodeToken legend encoding buffer) decoder).line ≤ maxU32 ∧
      (tokens.foldl (decodeToken legend encoding buffer) decoder).startChar ≤ maxU32 := by
  induction tokens generalizing decoder line start with
  | nil =>
      rw [List.foldl_nil, tracks.line_eq, tracks.start_eq]
      exact ⟨Nat.min_le_right _ _, Nat.min_le_right _ _⟩
  | cons tok tokens ih =>
      rw [List.foldl_cons]
      exact ih (decodeToken_step legend encoding tracks tok rfl rfl).1

/-! ### Deltas and spans together -/

/-- **Deltas splice soundly if and only if insertions come first, and spans are sound.**  Edits apart
from each other are spliced as if each were made for itself if and only if one that deletes comes
after those that start where it does, and the tokens are then those of the spliced integers; no
edits change nothing; no place of the array is passed; the sums stay `u32`s and every span fits
them; and where no sum is cut inside the document, every span lies where the tokens' own sums say. -/
theorem tokens_sound {edits : List SemanticTokensEdit} (apart : edits.Pairwise Apart)
    (base tokens : List SemanticToken) (legend : SemanticLegend) (encoding : PositionEncoding)
    (buffer : Buffer E) :
    (spliceIntegers (flattenTokens base) edits = spliceIndependently (flattenTokens base) edits ↔
        edits.Pairwise (InsertsFirst (flattenTokens base).length)) ∧
      (edits.Pairwise (InsertsFirst (flattenTokens base).length) →
        applyTokenEdits base edits =
          chunkTokens (spliceIndependently (flattenTokens base) edits)) ∧
      applyTokenEdits base [] = base ∧
      (∀ done rest, sortedEdits edits = done ++ rest →
        (done.foldl (applyEdit (flattenTokens base)) ([], 0)).2 ≤ (flattenTokens base).length) ∧
      (∀ done rest, tokens = done ++ rest →
        (done.foldl (decodeToken legend encoding buffer) ⟨fun _ => [], 0, 0, none⟩).line ≤ maxU32 ∧
        (done.foldl (decodeToken legend encoding buffer) ⟨fun _ => [], 0, 0, none⟩).startChar ≤
          maxU32) ∧
      (∀ row, ∀ span ∈ decodeTokens tokens legend encoding buffer row,
        SpanFits encoding buffer tokens row span) ∧
      (Uncut buffer tokens → ∀ row, ∀ span ∈ decodeTokens tokens legend encoding buffer row,
        ∃ place ∈ absoluteFrom 0 0 tokens, row = place.1 ∧
          span.start = columnByte encoding (buffer.lineCow row) place.2.1 ∧
          span.end_ =
            columnByte encoding (buffer.lineCow row) (place.2.1 + place.2.2.length.toNat)) := by
  refine ⟨splice_independent_iff apart, ?_, applyTokenEdits_nil base, ?_, ?_,
    fun _ _ member => decodeTokens_fits member, fun uncut _ _ member => decodeTokens_uncut uncut member⟩
  · intro inserts
    rw [applyTokenEdits, splice_independent apart inserts]
  · intro done _ _
    exact foldl_applyEdit_le _ done (Nat.zero_le _)
  · intro done _ _
    exact foldl_decodeToken_le legend encoding buffer (tracks_start buffer) done

/-- A buffer of one line, with a newline behind it. -/
def ofLine (line : Text) : Buffer Unit := Buffer.ofText (line ++ ['\n'])

/-- Two edits out of order: a token put in at its start, and the second token deleted. -/
theorem tokens_sound_pair :
    (applyTokenEdits [⟨0, 0, 1, 0, 0⟩, ⟨0, 2, 1, 0, 0⟩]
        [⟨5, 5, none⟩, ⟨0, 0, some [⟨1, 1, 1, 0, 0⟩]⟩] =
      [⟨1, 1, 1, 0, 0⟩, ⟨0, 0, 1, 0, 0⟩]) ∧
    (∃ span ∈ decodeTokens [⟨0, 1, 2, 0, 0⟩] ⟨["keyword"], []⟩ .utf16 (ofLine "été".toList) 0,
      SpanFits .utf16 (ofLine "été".toList) [⟨0, 1, 2, 0, 0⟩] 0 span) := by
  have sound := @tokens_sound Unit [⟨5, 5, none⟩, ⟨0, 0, some [⟨1, 1, 1, 0, 0⟩]⟩]
    (by simp [Apart]) [⟨0, 0, 1, 0, 0⟩, ⟨0, 2, 1, 0, 0⟩] [⟨0, 1, 2, 0, 0⟩] ⟨["keyword"], []⟩ .utf16 (ofLine "été".toList)
  constructor
  · rw [sound.2.1 (by simp [InsertsFirst])]
    decide
  · exact ⟨⟨2, 5, ["lsp.type.keyword"], "keyword", []⟩, by decide,
      sound.2.2.2.2.2.1 0 _ (by decide)⟩

theorem size_replicate_ascii (count : Nat) : size (List.replicate count 'a') = count := by
  induction count with
  | zero => rfl
  | succ count ih =>
      rw [List.replicate_succ, size_cons, ih]
      exact Nat.add_comm 1 count

theorem isLine_replicate (count : Nat) : IsLine (List.replicate count 'a') where
  no_newline := fun member => by simp at member
  no_carriage := fun member => by simp at member

@[simp] theorem ofLine_text (line : Text) : (ofLine line).text = line ++ ['\n'] := rfl

theorem ofLine_lineCount {line : Text} (isLine : IsLine line) : (ofLine line).lineCount = 1 := by
  rw [Buffer.lineCount, ofLine_text, lines_line isLine]
  rfl

theorem ofLine_lineCow {line : Text} (isLine : IsLine line) : (ofLine line).lineCow 0 = line := by
  rw [Buffer.lineCow, ofLine_lineCount isLine, if_pos Nat.one_pos, ofLine_text, lines_line isLine]
  exact stripEol_line isLine

/-- On a line longer than the greatest `u32`, a token that ends past it is cut there. -/
theorem cut_short {count : Nat} (long : maxU32 + 2 ≤ count) :
    decodeTokens [⟨0, 4294967293, 5, 0, 0⟩] ⟨["keyword"], []⟩ .utf8
        (ofLine (List.replicate count 'a')) 0 =
      [⟨maxU32 - 2, maxU32, ["lsp.type.keyword"], "keyword", []⟩] := by
  have ascii : ∀ c ∈ List.replicate count 'a', c.toNat < 0x80 := by
    intro c member
    rw [List.eq_of_mem_replicate member]
    decide
  have max_eq : maxU32 = 4294967295 := rfl
  have columns (character : Nat) : columnByte .utf8 ((ofLine (List.replicate count 'a')).lineCow 0)
      character = min character count := by
    rw [ofLine_lineCow (isLine_replicate count), columnByte_ascii _ _ ascii, size_replicate_ascii]
  have start_eq : min (min 4294967293 maxU32) count = maxU32 - 2 := by omega
  have stop_eq : min (min (4294967293 + 5) maxU32) count = maxU32 := by omega
  have place : absoluteFrom 0 0 [⟨0, 4294967293, 5, 0, 0⟩] =
      [(0, 4294967293, ⟨0, 4294967293, 5, 0, 0⟩)] := rfl
  have length_eq : (5 : UInt32).toNat = 5 := rfl
  have span : spanAt ⟨["keyword"], []⟩ .utf8 (ofLine (List.replicate count 'a')) 0
      (0, 4294967293, ⟨0, 4294967293, 5, 0, 0⟩) =
        some ⟨maxU32 - 2, maxU32, ["lsp.type.keyword"], "keyword", []⟩ := by
    simp only [spanAt, columns, length_eq, start_eq, stop_eq,
      ofLine_lineCount (isLine_replicate count)]
    rw [if_pos ⟨Nat.min_eq_left (Nat.zero_le _), Nat.one_pos, by omega⟩]
    rfl
  rw [decodeTokens_eq, place, List.filterMap_cons_some span, List.filterMap_nil]

/-- A token deleted before one is put in at its start comes back, and a column past the greatest `u32`
is cut. -/
theorem tokens_unsound :
    (List.Pairwise Apart [⟨0, 5, none⟩, ⟨0, 0, some [⟨1, 1, 1, 0, 0⟩]⟩] ∧
      applyTokenEdits [⟨0, 0, 1, 0, 0⟩] [⟨0, 5, none⟩, ⟨0, 0, some [⟨1, 1, 1, 0, 0⟩]⟩] ≠
        chunkTokens (spliceIndependently (flattenTokens [⟨0, 0, 1, 0, 0⟩])
          [⟨0, 5, none⟩, ⟨0, 0, some [⟨1, 1, 1, 0, 0⟩]⟩])) ∧
    ∃ span ∈ decodeTokens [⟨0, 4294967293, 5, 0, 0⟩] ⟨["keyword"], []⟩ .utf8
        (ofLine (List.replicate (maxU32 + 2) 'a')) 0,
      ∀ place ∈ absoluteFrom 0 0 [⟨0, 4294967293, 5, 0, 0⟩],
        span.end_ ≠ columnByte .utf8 ((ofLine (List.replicate (maxU32 + 2) 'a')).lineCow 0)
          (place.2.1 + place.2.2.length.toNat) := by
  constructor
  · constructor
    · simp [Apart]
    · decide
  · have decoded := cut_short (Nat.le_refl (maxU32 + 2))
    generalize count_eq : maxU32 + 2 = count at decoded
    refine ⟨_, decoded ▸ List.mem_singleton_self _, ?_⟩
    intro place member
    have ascii : ∀ c ∈ List.replicate count 'a', c.toNat < 0x80 := by
      intro c member
      rw [List.eq_of_mem_replicate member]
      decide
    have place_eq : place = (0, 4294967293, ⟨0, 4294967293, 5, 0, 0⟩) := List.mem_singleton.1 member
    have max_eq : maxU32 = 4294967295 := rfl
    rw [ofLine_lineCow (isLine_replicate count), columnByte_ascii _ _ ascii, size_replicate_ascii,
      place_eq]
    show maxU32 ≠ min (4294967293 + 5) count
    omega

end Bemtvi.Lsp.Semantic
