/-
Module: Bemtvi.Lib.Edits
Purpose: Edits of a text, all at once in the offsets of the text before any of them: at each offset the
  new texts that start there, in the order of the list, and every character that no edit covers.
  Applied one at a time from the last to the first, they give the same text.
Trusted boundary: human-reviewed spec
Main exports: Edit, edited, Apart, Fits, lastFirst, applyEach, edited_concat, apply_reverse,
  apply_lastFirst
-/
import Bemtvi.Lib.Text

namespace Bemtvi.Utf8

/-- The bytes from `start` to `stop` become `new`. -/
structure Edit where
  start : Nat
  stop : Nat
  new : Text
deriving Repr, DecidableEq

/-- The edit with another end. -/
def Edit.widen (stop : Nat) (edit : Edit) : Edit := { edit with stop := stop }

@[simp] theorem Edit.widen_start (stop : Nat) (edit : Edit) :
    (edit.widen stop).start = edit.start := rfl

@[simp] theorem Edit.widen_stop (stop : Nat) (edit : Edit) : (edit.widen stop).stop = stop := rfl

/-! ### All at once -/

/-- What the edits put at an offset, in their order. -/
def putAt (edits : List Edit) (byte : Nat) : Text :=
  (edits.filter fun edit => edit.start = byte).flatMap Edit.new

/-- Whether an edit takes out the byte at an offset. -/
def covered (edits : List Edit) (byte : Nat) : Bool :=
  edits.any fun edit => edit.start ≤ byte && byte < edit.stop

/-- The text after the edits, from an offset on. -/
@[grind =]
def edited (edits : List Edit) : Nat → Text → Text
  | byte, [] => putAt edits byte
  | byte, c :: text =>
      putAt edits byte ++ (if covered edits byte then [] else [c]) ++
        edited edits (byte + c.utf8Size) text

/-- The edit that comes first in the list and one that comes later do not overlap.  They may start
together when the first one is an insert. -/
def Apart (edit later : Edit) : Prop :=
  edit.stop ≤ later.start ∨ (later.stop ≤ edit.start ∧ later.start < edit.start)

instance : DecidableRel Apart := fun _ _ => inferInstanceAs (Decidable (_ ∨ _))

/-- Every edit stops at or before an offset. -/
def Before (edits : List Edit) (byte : Nat) : Prop :=
  ∀ edit ∈ edits, edit.start ≤ edit.stop ∧ edit.stop ≤ byte

/-! ### What is put, what is covered -/

theorem putAt_append (edits later : List Edit) (byte : Nat) :
    putAt (edits ++ later) byte = putAt edits byte ++ putAt later byte := by
  simp [putAt]

theorem covered_append (edits later : List Edit) (byte : Nat) :
    covered (edits ++ later) byte = (covered edits byte || covered later byte) :=
  List.any_append

theorem putAt_singleton (edit : Edit) (byte : Nat) :
    putAt [edit] byte = if edit.start = byte then edit.new else [] := by
  by_cases here : edit.start = byte <;> simp [putAt, here]

theorem covered_singleton (edit : Edit) (byte : Nat) :
    covered [edit] byte = (decide (edit.start ≤ byte) && decide (byte < edit.stop)) := by
  simp [covered]

variable {byte : Nat} {edits edits' : List Edit} {edit : Edit} {text : Text}

/-- Behind the starts of the edits nothing is put. -/
theorem putAt_of_lt (above : ∀ edit ∈ edits, edit.start < byte) : putAt edits byte = [] := by
  rw [putAt, List.filter_eq_nil_iff.2]
  · rfl
  · intro edit member
    have lower := above edit member
    simp only [decide_eq_true_eq]
    omega

/-- Behind the ends of the edits nothing is covered. -/
theorem covered_of_before {stop : Nat} (before : Before edits stop) (beyond : stop ≤ byte) :
    covered edits byte = false := by
  rw [covered, List.any_eq_false]
  intro edit member
  have inside := (before edit member).2
  simp only [Bool.and_eq_true, decide_eq_true_eq]
  omega

theorem Before.start_le (before : Before edits byte) (member : edit ∈ edits) : edit.start ≤ byte :=
  Nat.le_trans (before edit member).1 (before edit member).2

/-! ### The text around the edits -/

theorem edited_congr (byte : Nat) (text : Text)
    (put : ∀ at_byte, putAt edits at_byte = putAt edits' at_byte)
    (cover : ∀ at_byte, at_byte < byte + size text →
      covered edits at_byte = covered edits' at_byte) :
    edited edits byte text = edited edits' byte text := by
  induction text generalizing byte with
  | nil => exact put byte
  | cons c text ih =>
      have positive := c.utf8Size_pos
      rw [size_cons] at cover
      rw [edited, edited, put byte, cover byte (by omega), ih]
      intro at_byte below
      exact cover at_byte (by omega)

/-- Behind all the edits the text stays. -/
theorem edited_of_lt {stop : Nat} (before : Before edits stop) (beyond : stop < byte)
    (text : Text) : edited edits byte text = text := by
  have nothing : ∀ at_byte, byte ≤ at_byte → putAt edits at_byte = [] := by
    intro at_byte above
    apply putAt_of_lt
    intro edit member
    have lower := before.start_le member
    omega
  induction text generalizing byte with
  | nil => exact nothing byte (Nat.le_refl byte)
  | cons c text ih =>
      rw [edited, nothing byte (Nat.le_refl byte), covered_of_before before (Nat.le_of_lt beyond),
        ih (Nat.lt_add_right _ beyond) fun at_byte above => nothing at_byte (by omega)]
      rfl

/-- Where the last edit may still put something the text behind stays too. -/
theorem edited_at (before : Before edits byte) (text : Text) :
    edited edits byte text = putAt edits byte ++ text := by
  cases text with
  | nil => rw [edited, List.append_nil]
  | cons c text =>
      have positive := c.utf8Size_pos
      rw [edited, covered_of_before before (Nat.le_refl byte), edited_of_lt before (by omega)]
      simp

/-- What comes behind all the edits is left as it is. -/
theorem edited_append (front back : Text) (before : Before edits (byte + size front)) :
    edited edits byte (front ++ back) = edited edits byte front ++ back := by
  induction front generalizing byte with
  | nil =>
      rw [size_nil, Nat.add_zero] at before
      rw [List.nil_append, edited_at before, edited]
  | cons c front ih =>
      rw [size_cons, ← Nat.add_assoc] at before
      rw [List.cons_append, edited, edited, ih before]
      simp

/-- What the last edit takes out is gone. -/
theorem edited_covered (old back : Text) (before : Before edits edit.start)
    (beyond : edit.start < byte) (stop : byte + size old = edit.stop) :
    edited (edits ++ [edit]) byte (old ++ back) = back := by
  have nothing : ∀ at_byte, byte ≤ at_byte → putAt (edits ++ [edit]) at_byte = [] := by
    intro at_byte above
    apply putAt_of_lt
    intro other member
    rcases List.mem_append.1 member with earlier | last
    · have lower := before.start_le earlier
      omega
    · rw [List.mem_singleton.1 last]
      omega
  induction old generalizing byte with
  | nil =>
      have settled : Before (edits ++ [edit]) byte := by
        intro other member
        rcases List.mem_append.1 member with earlier | last
        · have lower := before other earlier
          omega
        · rw [List.mem_singleton.1 last]
          rw [size_nil] at stop
          omega
      rw [List.nil_append, edited_at settled, nothing byte (Nat.le_refl byte), List.nil_append]
  | cons c old ih =>
      have positive := c.utf8Size_pos
      rw [size_cons] at stop
      have takes : covered (edits ++ [edit]) byte = true := by
        rw [covered_append, covered_singleton, Bool.or_eq_true]
        refine Or.inr ?_
        simp only [Bool.and_eq_true, decide_eq_true_eq]
        omega
      rw [List.cons_append, edited, nothing byte (Nat.le_refl byte), takes,
        ih (by omega) (by omega) fun at_byte above => nothing at_byte (by omega)]
      rfl

/-- **The last edit.**  The others do what they do before it, it puts its text, and what comes behind
it is left as it is. -/
theorem edited_concat (front old back : Text) (before : Before edits edit.start)
    (start : byte + size front = edit.start) (stop : edit.start + size old = edit.stop) :
    edited (edits ++ [edit]) byte (front ++ old ++ back) =
      edited edits byte front ++ edit.new ++ back := by
  induction front generalizing byte with
  | nil =>
      rw [size_nil, Nat.add_zero] at start
      subst start
      have puts : putAt (edits ++ [edit]) edit.start = putAt edits edit.start ++ edit.new := by
        rw [putAt_append, putAt_singleton, if_pos rfl]
      cases old with
      | nil =>
          rw [size_nil, Nat.add_zero] at stop
          have settled : Before (edits ++ [edit]) edit.start := by
            intro other member
            rcases List.mem_append.1 member with earlier | last
            · exact before other earlier
            · rw [List.mem_singleton.1 last, stop]
              exact ⟨Nat.le_refl _, Nat.le_refl _⟩
          rw [List.nil_append, List.nil_append, edited_at settled, puts, edited]
      | cons c old =>
          have positive := c.utf8Size_pos
          rw [size_cons] at stop
          have takes : covered (edits ++ [edit]) edit.start = true := by
            rw [covered_append, covered_singleton, Bool.or_eq_true]
            refine Or.inr ?_
            simp only [Bool.and_eq_true, decide_eq_true_eq]
            omega
          rw [List.nil_append, List.cons_append, edited, edited, puts, takes,
            edited_covered old back before (by omega) (by omega)]
          simp
  | cons c front ih =>
      have positive := c.utf8Size_pos
      rw [size_cons] at start
      have puts : putAt (edits ++ [edit]) byte = putAt edits byte := by
        rw [putAt_append, putAt_singleton, if_neg (by omega), List.append_nil]
      have takes : covered (edits ++ [edit]) byte = covered edits byte := by
        rw [covered_append, covered_singleton]
        have not_yet : ¬ edit.start ≤ byte := by omega
        simp [not_yet]
      rw [List.cons_append, List.cons_append, edited, edited, puts, takes, ih (by omega)]
      simp

/-! ### One at a time -/

/-- Highest start first, and of those that start together the one that comes last in the list. -/
def laterFirst (a b : Edit × Nat) : Prop :=
  b.1.start < a.1.start ∨ (b.1.start = a.1.start ∧ b.2 ≤ a.2)

instance : DecidableRel laterFirst := fun _ _ => inferInstanceAs (Decidable (_ ∨ _))

instance : Std.Total laterFirst where
  total a b := by
    simp only [laterFirst]
    omega

instance : IsTrans (Edit × Nat) laterFirst where
  trans a b c := by
    simp only [laterFirst]
    omega

/-- The edits with their places in the list, last first. -/
def indexed (edits : List Edit) : List (Edit × Nat) := edits.zipIdx.insertionSort laterFirst

def lastFirst (edits : List Edit) : List Edit := (indexed edits).map Prod.fst

/-- Each edit applied to the text the ones before it left. -/
def applyEach (edits : List Edit) (text : Text) : Option Text :=
  edits.foldlM (fun text edit => splice text edit.start edit.stop edit.new) text

/-- The edit's offsets are places of the text. -/
def Fits (text : Text) (edit : Edit) : Prop :=
  ∃ front old back, text = front ++ old ++ back ∧ size front = edit.start ∧
    size front + size old = edit.stop

theorem Fits.ordered (fits : Fits text edit) : edit.start ≤ edit.stop := by
  obtain ⟨front, old, back, -, start, stop⟩ := fits
  omega

theorem Fits.stop_le (fits : Fits text edit) : edit.stop ≤ size text := by
  obtain ⟨front, old, back, rfl, start, stop⟩ := fits
  rw [size_append, size_append]
  omega

/-- Two places, one no earlier than the other, cut a text in three. -/
theorem fits_of_cuts {front back front' back' : Text}
    (start : text = front ++ back ∧ size front = edit.start)
    (stop : text = front' ++ back' ∧ size front' = edit.stop) (ordered : edit.start ≤ edit.stop) :
    Fits text edit := by
  have whole : front ++ back = front' ++ back' := start.1.symm.trans stop.1
  rcases List.append_eq_append_iff.1 whole with ⟨old, long, rest⟩ | ⟨old, short, -⟩
  · refine ⟨front, old, back', ?_, start.2, ?_⟩
    · rw [start.1, rest, List.append_assoc]
    · rw [← size_append, ← long, stop.2]
  · have sizes := congrArg size short
    rw [size_append, start.2, stop.2] at sizes
    have none_left : old = [] := size_eq_zero.1 (by omega)
    rw [none_left, List.append_nil] at short
    refine ⟨front, [], back, by rw [List.append_nil]; exact start.1, start.2, ?_⟩
    rw [size_nil, Nat.add_zero, short, stop.2]

/-- An edit fits a text by what stands before its end. -/
theorem Fits.front {front back back' : Text} (fits : Fits (front ++ back) edit)
    (before : edit.stop ≤ size front) : Fits (front ++ back') edit := by
  obtain ⟨front', old, rest, whole, start, stop⟩ := fits
  rcases List.append_eq_append_iff.1 whole with ⟨extra, long, -⟩ | ⟨extra, short, -⟩
  · have sizes := congrArg size long
    rw [size_append, size_append] at sizes
    have none_left : extra = [] := size_eq_zero.1 (by omega)
    rw [none_left, List.append_nil] at long
    exact ⟨front', old, back', by rw [long], start, stop⟩
  · exact ⟨front', old, extra ++ back', by rw [short, List.append_assoc], start, stop⟩

/-- **Edits in the order of the text, applied from the last to the first, are applied at once.** -/
theorem apply_reverse (ascending : edits.Pairwise fun edit later => edit.stop ≤ later.start)
    (fits : ∀ edit ∈ edits, Fits text edit) :
    applyEach edits.reverse text = some (edited edits 0 text) := by
  induction edits using List.reverseRecOn generalizing text with
  | nil =>
      have before : Before [] 0 := fun edit member => absurd member List.not_mem_nil
      rw [edited_at before]
      rfl
  | append_singleton edits edit ih =>
      obtain ⟨front, old, back, rfl, start, stop⟩ :=
        fits edit (List.mem_append_right _ (List.mem_singleton_self edit))
      obtain ⟨ascending, -, below⟩ := List.pairwise_append.1 ascending
      have before : Before edits edit.start := by
        intro other member
        exact ⟨(fits other (List.mem_append_left _ member)).ordered,
          below other member edit (List.mem_singleton_self edit)⟩
      have applied : splice (front ++ old ++ back) edit.start edit.stop edit.new =
          some (front ++ edit.new ++ back) := by
        rw [← start, ← stop]
        exact splice_append front old back edit.new
      have rest : ∀ other ∈ edits, Fits (front ++ edit.new ++ back) other := by
        intro other member
        have here := fits other (List.mem_append_left _ member)
        rw [List.append_assoc] at here ⊢
        exact here.front (by rw [start]; exact (before other member).2)
      have inside : Before edits (0 + size front) := by
        rw [Nat.zero_add, start]
        exact before
      rw [List.reverse_append, List.reverse_singleton, List.singleton_append, applyEach,
        List.foldlM_cons, applied]
      calc applyEach edits.reverse (front ++ edit.new ++ back)
          = some (edited edits 0 (front ++ edit.new ++ back)) := ih ascending rest
        _ = some (edited edits 0 front ++ edit.new ++ back) := by
            rw [List.append_assoc, edited_append front _ inside, List.append_assoc]
        _ = some (edited (edits ++ [edit]) 0 (front ++ old ++ back)) := by
            rw [edited_concat front old back before (by omega) (by omega)]

/-! ### The order -/

theorem indexed_perm (edits : List Edit) : (indexed edits).Perm edits.zipIdx :=
  List.perm_insertionSort laterFirst edits.zipIdx

theorem lastFirst_perm (edits : List Edit) : (lastFirst edits).Perm edits := by
  have fsts := (indexed_perm edits).map Prod.fst
  rw [List.zipIdx_map_fst] at fsts
  exact fsts

theorem pairwise_indexed (edits : List Edit) : (indexed edits).Pairwise laterFirst :=
  List.pairwise_insertionSort laterFirst edits.zipIdx

theorem nodup_zipIdx (edits : List Edit) : edits.zipIdx.Nodup := by
  apply List.Nodup.of_map Prod.snd
  rw [List.zipIdx_map_snd]
  exact List.nodup_range'

/-- Edits that do not overlap stand, last first, in the reverse of the order of the text. -/
theorem pairwise_lastFirst (ordered : ∀ edit ∈ edits, edit.start ≤ edit.stop)
    (apart : edits.Pairwise Apart) :
    (lastFirst edits).reverse.Pairwise fun edit later => edit.stop ≤ later.start := by
  rw [List.pairwise_reverse, lastFirst, List.pairwise_map]
  have distinct := (indexed_perm edits).nodup_iff.2 (nodup_zipIdx edits)
  refine ((pairwise_indexed edits).and distinct).imp_of_mem ?_
  intro a b member member' ⟨order, different⟩
  have at_a := List.mem_zipIdx_iff_getElem?.1 ((indexed_perm edits).mem_iff.1 member)
  have at_b := List.mem_zipIdx_iff_getElem?.1 ((indexed_perm edits).mem_iff.1 member')
  have ordered_a := ordered a.1 (List.mem_of_getElem? at_a)
  have ordered_b := ordered b.1 (List.mem_of_getElem? at_b)
  obtain ⟨inside_a, get_a⟩ := List.getElem?_eq_some_iff.1 at_a
  obtain ⟨inside_b, get_b⟩ := List.getElem?_eq_some_iff.1 at_b
  rw [List.pairwise_iff_getElem] at apart
  rcases Nat.lt_trichotomy a.2 b.2 with earlier | same | later
  · have holds := apart a.2 b.2 inside_a inside_b earlier
    rw [get_a, get_b] at holds
    simp only [Apart, laterFirst] at holds order
    omega
  · refine absurd (Prod.ext ?_ same) different
    rw [← get_a, ← get_b]
    simp only [same]
  · have holds := apart b.2 a.2 inside_b inside_a later
    rw [get_a, get_b] at holds
    simp only [Apart, laterFirst] at holds order
    omega

/-- Last first and back again, edits that start together keep their order. -/
theorem putAt_lastFirst (edits : List Edit) (byte : Nat) :
    putAt (lastFirst edits).reverse byte = putAt edits byte := by
  let here : Edit × Nat → Bool := fun entry => entry.1.start = byte
  have same : (indexed edits).reverse.filter here = edits.zipIdx.filter here := by
    refine List.Perm.eq_of_pairwise
      (?_ : ∀ a b : Edit × Nat, a ∈ _ → b ∈ _ → a.2 ≤ b.2 → b.2 ≤ a.2 → a = b) ?_ ?_ ?_
    · intro a b member member' below above
      have at_a := List.mem_zipIdx_iff_getElem?.1
        ((indexed_perm edits).mem_iff.1 (List.mem_reverse.1 (List.mem_filter.1 member).1))
      have at_b := List.mem_zipIdx_iff_getElem?.1 (List.mem_filter.1 member').1
      have same_place : a.2 = b.2 := Nat.le_antisymm below above
      rw [same_place, at_b] at at_a
      exact Prod.ext (Option.some.inj at_a).symm same_place
    · have order := (List.pairwise_reverse.2 ((pairwise_indexed edits).imp
        (S := fun a b => b.1.start = a.1.start → b.2 ≤ a.2) (by
          intro a b order
          simp only [laterFirst] at order
          omega)))
      refine (order.filter here).imp_of_mem ?_
      intro a b member member' order
      have start_a : a.1.start = byte := by simpa [here] using (List.mem_filter.1 member).2
      have start_b : b.1.start = byte := by simpa [here] using (List.mem_filter.1 member').2
      exact order (start_a.trans start_b.symm)
    · refine List.Pairwise.filter here ?_
      have places : (edits.zipIdx.map Prod.snd).Pairwise (· ≤ ·) := by
        rw [List.zipIdx_map_snd]
        exact (List.pairwise_lt_range').imp Nat.le_of_lt
      exact List.pairwise_map.1 places
    · exact ((List.reverse_perm _).trans (indexed_perm edits)).filter here
  have fsts := congrArg (List.map Prod.fst) same
  have unindexed : ∀ entries : List (Edit × Nat), (entries.filter here).map Prod.fst =
      (entries.map Prod.fst).filter fun edit => edit.start = byte := by
    intro entries
    rw [List.filter_map]
    rfl
  rw [unindexed, unindexed, List.map_reverse, List.zipIdx_map_fst] at fsts
  rw [putAt, putAt, lastFirst, fsts]

theorem covered_perm (perm : edits.Perm edits') (byte : Nat) :
    covered edits byte = covered edits' byte :=
  perm.any_eq

theorem edited_lastFirst (edits : List Edit) (byte : Nat) (text : Text) :
    edited (lastFirst edits).reverse byte text = edited edits byte text :=
  edited_congr byte text (putAt_lastFirst edits) fun at_byte _ =>
    covered_perm ((List.reverse_perm _).trans (lastFirst_perm edits)) at_byte

/-- **Edits that do not overlap, applied last first, are applied at once.** -/
theorem apply_lastFirst (apart : edits.Pairwise Apart) (fits : ∀ edit ∈ edits, Fits text edit) :
    applyEach (lastFirst edits) text = some (edited edits 0 text) := by
  have ascending := pairwise_lastFirst (fun edit member => (fits edit member).ordered) apart
  have applied : applyEach (lastFirst edits).reverse.reverse text = _ :=
    apply_reverse ascending fun edit member =>
      fits edit ((lastFirst_perm edits).mem_iff.1 (List.mem_reverse.1 member))
  rw [List.reverse_reverse] at applied
  rw [applied, edited_lastFirst]

end Bemtvi.Utf8
