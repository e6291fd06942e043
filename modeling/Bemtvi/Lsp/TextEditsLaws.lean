/-
Module: Bemtvi.Lsp.TextEditsLaws
Purpose: Text edits that do not overlap give the document the protocol says, all at once in the places
  of the old document, unless the edit that owns the tail only deletes, and the break before it
  comes or goes with another edit.
Trusted boundary: none
Main exports: TextEdit.resolved, leftOf, TailKnown, tailOf_spec, applyEach_spec, normalize_spec,
  getLast?_edited, applyTextEdits_spec, text_edits_iff
-/
import Bemtvi.Lsp.PositionLaws
import Bemtvi.Lsp.TextEdits

namespace Bemtvi.Lsp

open Utf8
open Bemtvi.Core (Buffer ExtmarkStore ensureTrailingNewline)
open Bemtvi.Core.Journal (charBefore charAt)

/-! ### What the protocol says -/

/-- An edit in the bytes of the document. -/
def TextEdit.resolved (encoding : PositionEncoding) (document : Text) (edit : TextEdit) : Edit :=
  let (start, stop) := documentRange encoding edit.range document
  ⟨start, stop, edit.newText⟩

/-- The character that comes to stand left of a place: the last one an edit that ends there puts, or
else what comes to stand left of that edit.  The edits come last first. -/
def leftOf (document : Text) : List Edit → Nat → Option Char
  | [], byte => charBefore document byte
  | edit :: edits, byte =>
      if edit.stop < byte then charBefore document byte
      else edit.new.getLast?.or (leftOf document edits edit.start)

/-- The edit that owns the document's tail puts some text, or what comes to stand left of it is a
newline if and only if a newline stood there. -/
def TailKnown (document : Text) (edits : List Edit) : Prop :=
  match lastFirst edits with
  | [] => True
  | tail :: others =>
      size document ≤ tail.stop → tail.new = [] →
        (charBefore document tail.start = some '\n' ↔
          leftOf document others tail.start = some '\n')

instance (document : Text) (edits : List Edit) : Decidable (TailKnown document edits) :=
  match order : lastFirst edits with
  | [] => isTrue (by rw [TailKnown, order]; trivial)
  | tail :: others =>
      decidable_of_iff (size document ≤ tail.stop → tail.new = [] →
        (charBefore document tail.start = some '\n' ↔
          leftOf document others tail.start = some '\n')) (by rw [TailKnown, order])

/-! ### Places of the document -/

theorem cut_documentByte (encoding : PositionEncoding) (character line : Nat) (document : Text) :
    ∃ front back, document = front ++ back ∧
      size front = documentByte encoding character line document := by
  induction line generalizing document with
  | zero =>
      obtain ⟨front, back, whole, length⟩ :=
        cut_columnByte encoding (document.takeWhile (· ≠ '\n')) character
      refine ⟨front, back ++ document.dropWhile (· ≠ '\n'), ?_, length⟩
      rw [← List.append_assoc, ← whole, List.takeWhile_append_dropWhile]
  | succ line ih =>
      rw [documentByte]
      split
      · exact ⟨document, [], (List.append_nil document).symm, rfl⟩
      · next c rest dropped =>
          have newline : c = '\n' := by
            have stops := List.head?_dropWhile_not (fun c : Char => decide (c ≠ '\n')) document
            rw [dropped] at stops
            simpa using stops
          subst newline
          obtain ⟨front, back, rfl, length⟩ := ih rest
          refine ⟨document.takeWhile (· ≠ '\n') ++ '\n' :: front, back, ?_, ?_⟩
          · rw [List.append_assoc, List.cons_append, ← dropped, List.takeWhile_append_dropWhile]
          · rw [size_append, size_cons, newline_size, length, Nat.add_assoc]

theorem resolved_fits (encoding : PositionEncoding) (document : Text) (edit : TextEdit) :
    Fits document (edit.resolved encoding document) := by
  obtain ⟨front, back, start⟩ := cut_documentByte encoding edit.range.start.character
    edit.range.start.line document
  obtain ⟨front', back', stop⟩ := cut_documentByte encoding edit.range.stop.character
    edit.range.stop.line document
  simp only [TextEdit.resolved, documentRange]
  rcases Nat.le_total (documentByte encoding edit.range.start.character edit.range.start.line
      document) (documentByte encoding edit.range.stop.character edit.range.stop.line document)
    with forward | reversed
  · rw [Nat.max_eq_left forward]
    exact fits_of_cuts start stop forward
  · rw [Nat.max_eq_right reversed]
    exact fits_of_cuts start start (Nat.le_refl _)

/-! ### The tail -/

theorem tailLe_refl (entry : Edit × Nat) : tailLe entry entry := by
  simp [tailLe]

variable {a b tail : Edit × Nat} {docLen : Nat} {edits : List Edit}

theorem tailLe_trans {c : Edit × Nat} (first : tailLe a b) (second : tailLe b c) :
    tailLe a c := by
  simp only [tailLe] at *
  omega

theorem tailLe_of_not (greater : ¬ tailLe a b) : tailLe b a := by
  simp only [tailLe] at *
  omega

/-- A turn keeps the best or takes the entry, and what it has is no smaller than either. -/
theorem pickTail_spec (best : Option (Edit × Nat)) (entry : Edit × Nat) :
    ∃ next, pickTail best entry = some next ∧ (best = some next ∨ next = entry) ∧
      (∀ old, best = some old → tailLe old next) ∧ tailLe entry next := by
  cases best with
  | none =>
      refine ⟨entry, rfl, Or.inr rfl, ?_, tailLe_refl entry⟩
      intro old absent
      cases absent
  | some old =>
      by_cases smaller : tailLe old entry
      · refine ⟨entry, if_pos smaller, Or.inr rfl, ?_, tailLe_refl entry⟩
        intro other same
        cases same
        exact smaller
      · refine ⟨old, if_neg smaller, Or.inl rfl, ?_, tailLe_of_not smaller⟩
        intro other same
        cases same
        exact tailLe_refl old

theorem pickTail_foldl {entries : List (Edit × Nat)} {best : Option (Edit × Nat)}
    (picked : entries.foldl pickTail best = some tail) :
    (best = some tail ∨ tail ∈ entries) ∧ (∀ old, best = some old → tailLe old tail) ∧
      ∀ entry ∈ entries, tailLe entry tail := by
  induction entries generalizing best with
  | nil =>
      refine ⟨Or.inl picked, ?_, fun entry absent => absurd absent List.not_mem_nil⟩
      rintro old rfl
      cases picked
      exact tailLe_refl tail
  | cons entry entries ih =>
      obtain ⟨next, turn, kept, above, above'⟩ := pickTail_spec best entry
      rw [List.foldl_cons, turn] at picked
      obtain ⟨found, greatest, rest⟩ := ih picked
      have next_le := greatest next rfl
      refine ⟨?_, fun old some_old => tailLe_trans (above old some_old) next_le, ?_⟩
      · rcases found with same | later
        · cases same
          rcases kept with kept | rfl
          · exact Or.inl kept
          · exact Or.inr List.mem_cons_self
        · exact Or.inr (List.mem_cons_of_mem entry later)
      · intro other member
        rcases List.mem_cons.1 member with rfl | later
        · exact tailLe_trans above' next_le
        · exact rest other later

/-- The tail reaches the end, and no edit that does is greater. -/
theorem tailOf_spec (found : tailOf docLen edits = some tail) :
    tail ∈ edits.zipIdx ∧ docLen ≤ tail.1.stop ∧
      ∀ entry ∈ edits.zipIdx, docLen ≤ entry.1.stop → tailLe entry tail := by
  obtain ⟨member, -, greatest⟩ := pickTail_foldl found
  obtain ⟨inside, reaches⟩ := List.mem_filter.1 (member.resolve_left (by simp))
  refine ⟨inside, by simpa using reaches, ?_⟩
  intro entry member reaches'
  exact greatest entry (List.mem_filter.2 ⟨member, by simpa using reaches'⟩)

theorem tailOf_eq_none (absent : tailOf docLen edits = none) :
    ∀ edit ∈ edits, edit.stop < docLen := by
  intro edit member
  by_contra reaches
  obtain ⟨i, at_i⟩ := List.getElem?_of_mem member
  have entry : (edit, i) ∈ edits.zipIdx.filter fun entry => entry.1.stop ≥ docLen :=
    List.mem_filter.2 ⟨List.mem_zipIdx_iff_getElem?.2 at_i, by simpa using reaches⟩
  have some_best : ∀ (entries : List (Edit × Nat)) (best : Edit × Nat),
      entries.foldl pickTail (some best) ≠ none := by
    intro entries
    induction entries with
    | nil => simp
    | cons other entries ih =>
        intro best
        obtain ⟨next, turn, -⟩ := pickTail_spec (some best) other
        rw [List.foldl_cons, turn]
        exact ih next
  rw [tailOf] at absent
  cases entries : edits.zipIdx.filter fun entry => entry.1.stop ≥ docLen with
  | nil =>
      rw [entries] at entry
      cases entry
  | cons first rest =>
      rw [entries] at absent
      exact some_best rest first absent

/-- Among edits that do not overlap and stay in the document, the tail comes last in the text. -/
theorem indexed_tail (inside : ∀ edit ∈ edits, edit.start ≤ edit.stop ∧ edit.stop ≤ docLen)
    (apart : edits.Pairwise Apart) (found : tailOf docLen edits = some tail) :
    ∃ others, indexed edits = tail :: others := by
  obtain ⟨member, reaches, greatest⟩ := tailOf_spec found
  have perm := indexed_perm edits
  have last : ∀ entry ∈ edits.zipIdx, laterFirst tail entry := by
    intro entry member'
    have at_tail := List.mem_zipIdx_iff_getElem?.1 member
    have at_entry := List.mem_zipIdx_iff_getElem?.1 member'
    have tail_inside := inside tail.1 (List.mem_of_getElem? at_tail)
    have entry_inside := inside entry.1 (List.mem_of_getElem? at_entry)
    have greatest' := greatest entry member'
    obtain ⟨below, get_tail⟩ := List.getElem?_eq_some_iff.1 at_tail
    obtain ⟨below', get_entry⟩ := List.getElem?_eq_some_iff.1 at_entry
    rw [List.pairwise_iff_getElem] at apart
    rcases Nat.lt_trichotomy tail.2 entry.2 with earlier | same | later
    · have holds := apart tail.2 entry.2 below below' earlier
      rw [get_tail, get_entry] at holds
      simp only [Apart, tailLe, laterFirst] at holds greatest' ⊢
      omega
    · have same_edit : entry.1 = tail.1 := by
        rw [← get_tail, ← get_entry]
        simp only [same]
      rw [laterFirst, same_edit, same]
      exact Or.inr ⟨rfl, Nat.le_refl _⟩
    · have holds := apart entry.2 tail.2 below' below later
      rw [get_tail, get_entry] at holds
      simp only [Apart, tailLe, laterFirst] at holds greatest' ⊢
      omega
  cases order : indexed edits with
  | nil =>
      rw [order] at perm
      rw [← perm.mem_iff] at member
      cases member
  | cons head others =>
      refine ⟨others, ?_⟩
      have sorted := pairwise_indexed edits
      rw [order] at sorted perm
      have head_member := perm.mem_iff.1 List.mem_cons_self
      rcases List.mem_cons.1 (perm.mem_iff.2 member) with rfl | behind
      · rfl
      · have before := (List.pairwise_cons.1 sorted).1 tail behind
        have behind' := last head head_member
        have same_place : head.2 = tail.2 := by
          simp only [laterFirst] at before behind'
          omega
        have at_tail := List.mem_zipIdx_iff_getElem?.1 member
        have at_head := List.mem_zipIdx_iff_getElem?.1 head_member
        rw [same_place, at_tail] at at_head
        rw [Prod.ext (Option.some.inj at_head).symm same_place]

/-- Widening one edit leaves the order as it is. -/
theorem indexed_modify (edits : List Edit) (i stop : Nat) :
    indexed (edits.modify i (Edit.widen stop)) =
      (indexed edits).map fun entry =>
        if entry.2 = i then (entry.1.widen stop, entry.2) else entry := by
  let widen : Edit × Nat → Edit × Nat := fun entry =>
    if entry.2 = i then (entry.1.widen stop, entry.2) else entry
  have start_kept : ∀ entry, (widen entry).1.start = entry.1.start ∧ (widen entry).2 = entry.2 := by
    intro entry
    simp only [widen]
    split <;> exact ⟨rfl, rfl⟩
  have entries : (edits.modify i (Edit.widen stop)).zipIdx =
      edits.zipIdx.map widen := by
    apply List.ext_getElem?
    intro j
    rw [List.getElem?_zipIdx, List.getElem?_map, List.getElem?_zipIdx, List.getElem?_modify]
    cases edits[j]? with
    | none => rfl
    | some edit =>
        by_cases same : i = j <;> simp [widen, same, eq_comm]
  rw [indexed, entries]
  refine (List.map_insertionSort laterFirst laterFirst widen _ ?_).symm
  intro a _ b _
  rw [laterFirst, laterFirst, (start_kept a).1, (start_kept a).2, (start_kept b).1,
    (start_kept b).2]

/-- The order with the tail widened: the others stay as they are. -/
theorem lastFirst_widened {others : List (Edit × Nat)} (order : indexed edits = tail :: others)
    (stop : Nat) : lastFirst (edits.modify tail.2 (Edit.widen stop)) =
      tail.1.widen stop :: others.map Prod.fst := by
  have perm := indexed_perm edits
  rw [order] at perm
  have distinct := perm.nodup_iff.2 (nodup_zipIdx edits)
  have other_place : ∀ entry ∈ others, entry.2 ≠ tail.2 := by
    intro entry member same
    have at_tail := List.mem_zipIdx_iff_getElem?.1 (perm.mem_iff.1 List.mem_cons_self)
    have at_entry := List.mem_zipIdx_iff_getElem?.1
      (perm.mem_iff.1 (List.mem_cons_of_mem tail member))
    rw [same, at_tail] at at_entry
    have same_entry : tail = entry := Prod.ext (Option.some.inj at_entry) same.symm
    exact (List.nodup_cons.1 distinct).1 (same_entry ▸ member)
  rw [lastFirst, indexed_modify, order, List.map_cons, List.map_cons, if_pos rfl, List.map_map]
  refine congrArg _ (List.map_congr_left ?_)
  intro entry member
  rw [Function.comp_apply, if_neg (other_place entry member)]

/-! ### What comes to stand left of a place -/

theorem charBefore_append (front back : Text) :
    charBefore (front ++ back) (size front) = front.getLast? := by
  rw [charBefore, cut_append]
  rfl

/-- The newline the code looks for one byte before a place is the character that ends there. -/
theorem charAt_pred {front back : Text} :
    (0 < size front ∧ charAt (front ++ back) (size front - 1) = some '\n') ↔
      front.getLast? = some '\n' := by
  constructor
  · rintro ⟨positive, found⟩
    obtain ⟨⟨front', back'⟩, at_byte, head⟩ := Option.bind_eq_some_iff.1 found
    obtain ⟨whole, length⟩ := cut_eq_some.1 at_byte
    cases back' with
    | nil => cases head
    | cons c back' =>
        cases head
        have again : cut (front ++ back) (size front) = some (front' ++ ['\n'], back') := by
          refine cut_eq_some.2 ⟨by rw [whole]; simp, ?_⟩
          rw [size_append, length, size_cons, newline_size, size_nil]
          omega
        rw [cut_append] at again
        cases again
        exact List.getLast?_concat
  · intro last
    obtain ⟨front', rfl⟩ := List.getLast?_eq_some_iff.1 last
    have length : size (front' ++ ['\n']) = size front' + 1 := by
      rw [size_append, size_cons, newline_size, size_nil]
    rw [length, Nat.add_sub_cancel, charAt, List.append_assoc, cut_append]
    exact ⟨Nat.succ_pos _, rfl⟩

/-- **What comes to stand left of a place**, when the edits before it are done.  By induction on the
edits, the last one first. -/
theorem getLast?_edited (front back : Text)
    (ascending : edits.Pairwise fun edit later => edit.stop ≤ later.start)
    (fits : ∀ edit ∈ edits, Fits (front ++ back) edit ∧ edit.stop ≤ size front) :
    (edited edits 0 front).getLast? = leftOf (front ++ back) edits.reverse (size front) := by
  induction edits using List.reverseRecOn generalizing front back with
  | nil =>
      have before : Before [] 0 := fun edit member => absurd member List.not_mem_nil
      rw [edited_at before, List.reverse_nil, leftOf, charBefore_append]
      rfl
  | append_singleton edits edit ih =>
      obtain ⟨here, within⟩ := fits edit (List.mem_append_right _ (List.mem_singleton_self edit))
      obtain ⟨ascending, -, below⟩ := List.pairwise_append.1 ascending
      -- The edit fits the front alone.
      have alone : Fits (front ++ []) edit := here.front within
      obtain ⟨front', old, rest, whole, start, stop⟩ := alone
      rw [List.append_nil] at whole
      subst whole
      have before : Before edits edit.start := by
        intro other member
        exact ⟨(fits other (List.mem_append_left _ member)).1.ordered,
          below other member edit (List.mem_singleton_self edit)⟩
      rw [edited_concat front' old rest before (by omega) (by omega), List.reverse_append,
        List.reverse_singleton, List.singleton_append, leftOf]
      by_cases apart : edit.stop < size (front' ++ old ++ rest)
      · have some_text : rest ≠ [] := by
          rintro rfl
          rw [List.append_nil, size_append] at apart
          omega
        rw [if_pos apart, charBefore_append, List.getLast?_append_of_ne_nil _ some_text,
          List.getLast?_append_of_ne_nil _ some_text]
      · have none_left : rest = [] := by
          rw [size_append, size_append] at apart
          exact size_eq_zero.1 (by omega)
        subst none_left
        have inner := ih front' (old ++ back) ascending (by
          intro other member
          obtain ⟨fits_other, -⟩ := fits other (List.mem_append_left _ member)
          rw [List.append_nil, List.append_assoc] at fits_other
          exact ⟨fits_other, by rw [start]; exact (before other member).2⟩)
        rw [if_neg apart, List.append_nil, List.getLast?_append, inner, ← start, List.append_nil,
          List.append_assoc]

/-! ### The edits on the rope -/

theorem snapDown_place {text front back : Text} {byte : Nat}
    (place : text = front ++ back ∧ size front = byte) :
    snapDown text (min byte (size text)) = byte := by
  have inside : byte ≤ size text := by
    rw [place.1, size_append, place.2]
    exact Nat.le_add_right _ _
  rw [Nat.min_eq_left inside]
  refine snapDown_eq (isCharBoundary_iff.2 ⟨front, back, place⟩) (Nat.le_refl _) ?_
  intro other above within
  exact absurd within (Nat.not_le.2 above)

section Rope

variable {E : Type} [ExtmarkStore E]

variable {buffer : Buffer E} {text : Text} {edits : List Edit} {tail : Edit × Nat}
  {encoding : PositionEncoding}

theorem insert_spec {front back new : Text} (whole : buffer.text = front ++ back)
    (some_text : new ≠ []) : ∃ buffer', buffer.insert (size front) new = some buffer' ∧
      buffer'.text = front ++ new ++ back ∧ buffer'.options = buffer.options := by
  have spliced : splice buffer.text (size front) (size front) new = some (front ++ new ++ back) := by
    have inserted := splice_append front [] back new
    rw [List.append_nil, size_nil, Nat.add_zero] at inserted
    rw [whole, inserted]
  have not_empty : new.isEmpty = false := by
    rw [List.isEmpty_eq_false_iff]
    exact some_text
  simp only [Buffer.insert, not_empty, spliced, Bool.false_eq_true, if_false]
  exact ⟨_, rfl, rfl, rfl⟩

theorem remove_spec {front old back : Text} (whole : buffer.text = front ++ old ++ back)
    (some_text : size front < size front + size old) :
    ∃ buffer', buffer.remove (size front) (size front + size old) = some buffer' ∧
      buffer'.text = front ++ back ∧ buffer'.options = buffer.options := by
  have spliced : splice buffer.text (size front) (size front + size old) [] =
      some (front ++ back) := by
    rw [whole, splice_append, List.append_nil]
  rw [Buffer.remove, if_neg (Nat.not_le.2 some_text)]
  simp only [spliced]
  exact ⟨_, rfl, rfl, rfl⟩

/-- **One edit on the rope is its splice of the text.** -/
theorem applyEdit_spec {edit : Edit}
    (spliced : splice buffer.text edit.start edit.stop edit.new = some text) :
    ∃ buffer', applyEdit buffer edit = some buffer' ∧ buffer'.text = text ∧
      buffer'.options = buffer.options := by
  obtain ⟨front, old, back, whole, start, stop, rfl⟩ := splice_eq_some.1 spliced
  have at_start : snapDown buffer.text (min edit.start (size buffer.text)) = edit.start :=
    snapDown_place ⟨by rw [whole, List.append_assoc], start⟩
  have at_stop : snapDown buffer.text (min edit.stop (size buffer.text)) = edit.stop :=
    snapDown_place ⟨whole, by rw [size_append, stop]⟩
  rw [applyEdit]
  simp only [at_start, at_stop]
  have removed : ∃ buffer', (if edit.start < edit.stop then buffer.remove edit.start edit.stop
      else some buffer) = some buffer' ∧ buffer'.text = front ++ back ∧
        buffer'.options = buffer.options := by
    by_cases some_bytes : edit.start < edit.stop
    · rw [if_pos some_bytes, ← start, ← stop]
      rw [← start, ← stop] at some_bytes
      exact remove_spec whole some_bytes
    · have no_text : old = [] := size_eq_zero.1 (by omega)
      subst no_text
      rw [if_neg some_bytes]
      exact ⟨buffer, rfl, by rw [whole, List.append_nil], rfl⟩
  obtain ⟨middle, removes, rest, options⟩ := removed
  rw [removes, Option.bind_some]
  cases puts : edit.new with
  | nil => exact ⟨middle, rfl, by rw [rest, List.append_nil], options⟩
  | cons c new =>
      obtain ⟨buffer', inserts, text', options'⟩ := insert_spec rest (List.cons_ne_nil c new)
      rw [start] at inserts
      exact ⟨buffer', inserts, text', options'.trans options⟩

/-- The edits on the rope are the edits of the text. -/
theorem applyEach_spec (applied : applyEach edits buffer.text = some text) :
    ∃ buffer', edits.foldlM applyEdit buffer = some buffer' ∧ buffer'.text = text ∧
      buffer'.options = buffer.options := by
  induction edits generalizing buffer with
  | nil =>
      cases applied
      exact ⟨buffer, rfl, rfl, rfl⟩
  | cons edit edits ih =>
      rw [applyEach, List.foldlM_cons] at applied
      obtain ⟨middle, spliced, rest⟩ := Option.bind_eq_some_iff.1 applied
      obtain ⟨next, turn, same_text, options⟩ := applyEdit_spec spliced
      rw [← same_text] at rest
      obtain ⟨buffer', applies, text', options'⟩ := ih rest
      rw [List.foldlM_cons, turn]
      exact ⟨buffer', applies, text', options'.trans options⟩

theorem getLast?_ensureTrailingNewline (text : Text) : (ensureTrailingNewline text).getLast? = some '\n' := by
  rw [ensureTrailingNewline]
  split
  · assumption
  · exact List.getLast?_concat

theorem normalize_spec (buffer : Buffer E) :
    ∃ buffer', buffer.normalize = some buffer' ∧ buffer'.text = ensureTrailingNewline buffer.text ∧
      buffer'.options = buffer.options := by
  rw [Buffer.normalize, ensureTrailingNewline]
  by_cases ends : buffer.text.getLast? = some '\n'
  · simp only [ends, if_true]
    exact ⟨buffer, rfl, rfl, rfl⟩
  · obtain ⟨buffer', inserts, text', options⟩ :=
      insert_spec (List.append_nil buffer.text).symm (List.cons_ne_nil '\n' [])
    simp only [ends, if_false, inserts]
    exact ⟨_, rfl, by rw [text', List.append_nil], options⟩

theorem applyEditsTo_spec (ends : buffer.text.getLast? = some '\n')
    (applied : applyEach (lastFirst edits) buffer.text = some text) :
    ∃ buffer', applyEditsTo buffer edits = some buffer' ∧ buffer'.text = ensureTrailingNewline text ∧
      buffer'.options = buffer.options := by
  cases edits with
  | nil =>
      cases applied
      exact ⟨buffer, rfl, (if_pos ends).symm, rfl⟩
  | cons edit edits =>
      obtain ⟨middle, applies, same_text, options⟩ := applyEach_spec applied
      obtain ⟨buffer', normalizes, text', options'⟩ := normalize_spec middle
      refine ⟨buffer', ?_, by rw [text', same_text], options'.trans options⟩
      rw [applyEditsTo, List.isEmpty_cons, if_neg Bool.false_ne_true, applies]
      exact normalizes

/-! ### The document -/

omit [ExtmarkStore E] in
/-- The rope is the document and the newline it may be short of. -/
theorem rope_eq (ends : buffer.text.getLast? = some '\n') :
    ∃ phantom, buffer.text = buffer.documentText ++ phantom ∧
      ((buffer.options.endofline = true ∧ phantom = []) ∨
        (buffer.options.endofline = false ∧ phantom = ['\n'])) := by
  cases eol : buffer.options.endofline with
  | true => exact ⟨[], by simp [Buffer.documentText, eol], Or.inl ⟨rfl, rfl⟩⟩
  | false =>
      refine ⟨['\n'], ?_, Or.inr ⟨rfl, rfl⟩⟩
      obtain ⟨front, whole⟩ := List.getLast?_eq_some_iff.1 ends
      simp [Buffer.documentText, eol, whole]

omit [ExtmarkStore E] in
theorem documentLenBytes_eq (ends : buffer.text.getLast? = some '\n') :
    buffer.documentLenBytes = size buffer.documentText := by
  obtain ⟨phantom, whole, ⟨eol, rfl⟩ | ⟨eol, rfl⟩⟩ := rope_eq ends
  · rw [Buffer.documentLenBytes, whole, eol, List.append_nil]
    rfl
  · rw [Buffer.documentLenBytes, whole, eol, size_append, size_cons, newline_size, size_nil]
    simp

omit [ExtmarkStore E] in
theorem byteEdits_eq (ends : buffer.text.getLast? = some '\n') (plain : '\r' ∉ buffer.text)
    (edits : List TextEdit) (encoding : PositionEncoding) : byteEdits buffer edits encoding =
      edits.map (TextEdit.resolved encoding buffer.documentText) := by
  apply List.map_congr_left
  intro edit _
  simp only [lspRangeToBytesIn_eq ends plain, TextEdit.resolved]

/-- A flag is right when it says how the document ends. -/
theorem document_ensureTrailingNewline (document : Text) (endofline : Bool) :
    documentOf endofline (ensureTrailingNewline document) = document ↔
      (endofline = true ↔ document.getLast? = some '\n') := by
  rw [documentOf, ensureTrailingNewline]
  by_cases ends : document.getLast? = some '\n'
  · have some_text : document ≠ [] := by
      rintro rfl
      cases ends
    cases endofline with
    | true => simp [ends]
    | false =>
        have shorter : document.dropLast ≠ document := by
          intro same
          have lengths := congrArg List.length same
          rw [List.length_dropLast] at lengths
          have positive := List.length_pos_of_ne_nil some_text
          omega
        simp [ends, shorter]
  · cases endofline <;> simp [ends]

/-! ### The edits of a server -/

/-- No edit reaches the document's end: it ends as before. -/
theorem no_tail_applied (ends : buffer.text.getLast? = some '\n') (apart : edits.Pairwise Apart)
    (fits : ∀ edit ∈ edits, Fits buffer.documentText edit)
    (short : ∀ edit ∈ edits, edit.stop < size buffer.documentText) :
    ∃ buffer', applyEditsTo buffer edits = some buffer' ∧
      buffer'.documentText = edited edits 0 buffer.documentText ∧
      buffer'.text.getLast? = some '\n' := by
  obtain ⟨phantom, whole, tail⟩ := rope_eq ends
  have fits_rope : ∀ edit ∈ edits, Fits buffer.text edit := by
    intro edit member
    rw [whole]
    have alone : Fits (buffer.documentText ++ []) edit := by
      rw [List.append_nil]
      exact fits edit member
    exact alone.front (Nat.le_of_lt (short edit member))
  obtain ⟨buffer', applies, text', options⟩ := applyEditsTo_spec ends
    (apply_lastFirst apart fits_rope)
  refine ⟨buffer', applies, ?_, by rw [text', getLast?_ensureTrailingNewline]⟩
  have before : Before edits (0 + size buffer.documentText) := by
    intro edit member
    rw [Nat.zero_add]
    exact ⟨(fits edit member).ordered, Nat.le_of_lt (short edit member)⟩
  rw [whole, edited_append _ _ before] at text'
  have same : buffer'.documentText = documentOf buffer.options.endofline buffer'.text := by
    rw [← options]
    rfl
  rw [same, text']
  rcases tail with ⟨eol, rfl⟩ | ⟨eol, rfl⟩
  · -- The document's own newline is out of every edit's reach.
    rw [List.append_nil, eol, document_ensureTrailingNewline]
    rw [List.append_nil] at whole
    obtain ⟨front, split⟩ := List.getLast?_eq_some_iff.1 (whole ▸ ends)
    have before_newline : Before edits (0 + size front) := by
      intro edit member
      have shorter := short edit member
      rw [split, size_append, size_cons, newline_size, size_nil] at shorter
      exact ⟨(fits edit member).ordered, by omega⟩
    rw [split, edited_append _ _ before_newline, List.getLast?_concat]
    simp
  · rw [eol, ensureTrailingNewline, if_pos List.getLast?_concat]
    exact List.dropLast_concat

/-- The edit that owns the tail, widened over the rope's end, leaves the document with the edits. -/
theorem tail_applied (ends : buffer.text.getLast? = some '\n') (apart : edits.Pairwise Apart)
    (fits : ∀ edit ∈ edits, Fits buffer.documentText edit)
    (found : tailOf (size buffer.documentText) edits = some tail) : ∃ buffer' others front,
      applyEditsTo buffer
          (edits.modify tail.2 (Edit.widen (size buffer.text))) = some buffer' ∧
        buffer'.text = ensureTrailingNewline (edited edits 0 buffer.documentText) ∧
        lastFirst edits = tail.1 :: others ∧
        (∃ back, buffer.documentText = front ++ back) ∧ size front = tail.1.start ∧
        edited edits 0 buffer.documentText = edited others.reverse 0 front ++ tail.1.new ∧
        (edited others.reverse 0 front).getLast? =
          leftOf buffer.documentText others tail.1.start := by
  have inside : ∀ edit ∈ edits, edit.start ≤ edit.stop ∧ edit.stop ≤ size buffer.documentText :=
    fun edit member => ⟨(fits edit member).ordered, (fits edit member).stop_le⟩
  obtain ⟨entries, order⟩ := indexed_tail inside apart found
  obtain ⟨member, reaches, -⟩ := tailOf_spec found
  have tail_member := List.fst_mem_of_mem_zipIdx member
  have stop : tail.1.stop = size buffer.documentText :=
    Nat.le_antisymm (inside tail.1 tail_member).2 reaches
  have first : lastFirst edits = tail.1 :: entries.map Prod.fst := by
    rw [lastFirst, order, List.map_cons]
  obtain ⟨front, old, back, whole, start, stop'⟩ := fits tail.1 tail_member
  have no_back : back = [] := by
    rw [whole, size_append, size_append] at stop
    exact size_eq_zero.1 (by omega)
  subst no_back
  obtain ⟨phantom, rope, -⟩ := rope_eq ends
  have ascending := pairwise_lastFirst (fun edit member => (inside edit member).1) apart
  rw [first, List.reverse_cons] at ascending
  obtain ⟨ascending_others, -, below⟩ := List.pairwise_append.1 ascending
  have others_member : ∀ edit ∈ (entries.map Prod.fst).reverse, edit ∈ edits := by
    intro edit member
    rw [← (lastFirst_perm edits).mem_iff, first]
    exact List.mem_cons_of_mem _ (List.mem_reverse.1 member)
  have before : Before (entries.map Prod.fst).reverse tail.1.start := by
    intro edit member
    exact ⟨(inside edit (others_member edit member)).1,
      below edit member tail.1 (List.mem_singleton_self _)⟩
  have result : edited edits 0 buffer.documentText =
      edited (entries.map Prod.fst).reverse 0 front ++ tail.1.new := by
    rw [← edited_lastFirst, first, List.reverse_cons, whole,
      edited_concat front old [] before (by omega) (by omega), List.append_nil]
  have widened := lastFirst_widened order (size buffer.text)
  have applied : applyEach (lastFirst
      (edits.modify tail.2 (Edit.widen (size buffer.text)))) buffer.text =
        some (edited edits 0 buffer.documentText) := by
    have reversed : lastFirst (edits.modify tail.2 (Edit.widen (size buffer.text))) = ((entries.map Prod.fst).reverse ++
          [tail.1.widen (size buffer.text)]).reverse := by
      rw [widened, List.reverse_append, List.reverse_singleton, List.reverse_reverse,
        List.singleton_append]
    have split : buffer.text = front ++ (old ++ phantom) ++ [] := by
      rw [rope, whole]
      simp
    have size_rope : size buffer.text = size front + size (old ++ phantom) := by
      rw [split, List.append_nil, size_append]
    rw [reversed, apply_reverse, result]
    · have before_wide : Before (entries.map Prod.fst).reverse
          (tail.1.widen (size buffer.text)).start := before
      have stop_rope : (tail.1.widen (size buffer.text)).start + size (old ++ phantom) =
          (tail.1.widen (size buffer.text)).stop := by
        rw [Edit.widen_start, Edit.widen_stop, size_rope, start]
      have concat := edited_concat front (old ++ phantom) [] before_wide
        ((Nat.zero_add _).trans start) stop_rope
      rw [← split, List.append_nil] at concat
      exact congrArg some concat
    · refine List.pairwise_append.2 ⟨ascending_others, List.pairwise_singleton _ _, ?_⟩
      intro edit member other single
      rw [List.mem_singleton.1 single]
      exact (before edit member).2
    · intro edit member
      rcases List.mem_append.1 member with earlier | last
      · rw [rope]
        have alone : Fits (buffer.documentText ++ []) edit := by
          rw [List.append_nil]
          exact fits edit (others_member edit earlier)
        exact alone.front (inside edit (others_member edit earlier)).2
      · rw [List.mem_singleton.1 last]
        exact ⟨front, old ++ phantom, [], split, start, size_rope.symm⟩
  obtain ⟨buffer', applies, text', -⟩ := applyEditsTo_spec ends applied
  refine ⟨buffer', entries.map Prod.fst, front, applies, text', first, ⟨old, ?_⟩, start, result, ?_⟩
  · rw [whole, List.append_nil]
  · have left := getLast?_edited front old ascending_others (by
      intro edit member
      refine ⟨?_, by rw [start]; exact (before edit member).2⟩
      rw [← List.append_nil (front ++ old), ← whole]
      exact fits edit (others_member edit member))
    rw [left, List.reverse_reverse, start, whole, List.append_nil]

omit [ExtmarkStore E] in
theorem documentText_setEndofline (buffer : Buffer E) (endofline : Bool) :
    (setEndofline buffer (some endofline)).documentText = documentOf endofline buffer.text := rfl

omit [ExtmarkStore E] in
/-- Without a tail the edits go in as they are. -/
theorem lspEditsToByteEdits_none {edits : List TextEdit}
    (absent : tailOf buffer.documentLenBytes (byteEdits buffer edits encoding) = none) :
    lspEditsToByteEdits buffer edits encoding = (byteEdits buffer edits encoding, none) := by
  rw [lspEditsToByteEdits]
  simp only [absent]

omit [ExtmarkStore E] in
theorem lspEditsToByteEdits_some {edits : List TextEdit}
    (found : tailOf buffer.documentLenBytes (byteEdits buffer edits encoding) = some tail) :
    ∃ endofline, lspEditsToByteEdits buffer edits encoding =
        ((byteEdits buffer edits encoding).modify tail.2 (Edit.widen (size buffer.text)),
          some endofline) ∧
      (tail.1.new ≠ [] → (endofline = true ↔ tail.1.new.getLast? = some '\n')) ∧
      (tail.1.new = [] → (endofline = true ↔
        0 < tail.1.start ∧ charAt buffer.text (tail.1.start - 1) = some '\n')) := by
  rw [lspEditsToByteEdits]
  simp only [found]
  refine ⟨_, rfl, ?_, ?_⟩
  · intro some_text
    have not_empty : tail.1.new.isEmpty = false := List.isEmpty_eq_false_iff.2 some_text
    simp [not_empty]
  · intro empty
    simp [empty]

/-- Edits that do not overlap are made, and the rope ends in a newline again.  They make the document
what the protocol says when the tail's break is known, and only then. -/
theorem applyTextEdits_spec (ends : buffer.text.getLast? = some '\n') (plain : '\r' ∉ buffer.text)
    {edits : List TextEdit}
    (apart : (edits.map (TextEdit.resolved encoding buffer.documentText)).Pairwise Apart) :
    ∃ buffer', applyTextEdits buffer edits encoding = some buffer' ∧
      buffer'.text.getLast? = some '\n' ∧
      (buffer'.documentText =
          edited (edits.map (TextEdit.resolved encoding buffer.documentText)) 0
            buffer.documentText ↔
        TailKnown buffer.documentText
          (edits.map (TextEdit.resolved encoding buffer.documentText))) := by
  have bytes := byteEdits_eq ends plain edits encoding
  have fits : ∀ edit ∈ edits.map (TextEdit.resolved encoding buffer.documentText),
      Fits buffer.documentText edit := by
    intro edit member
    obtain ⟨textEdit, -, rfl⟩ := List.mem_map.1 member
    exact resolved_fits encoding buffer.documentText textEdit
  rw [TailKnown]
  cases found : tailOf (size buffer.documentText)
      (edits.map (TextEdit.resolved encoding buffer.documentText)) with
  | none =>
      have short := tailOf_eq_none found
      obtain ⟨buffer', applies, document, last⟩ := no_tail_applied ends apart fits short
      rw [← documentLenBytes_eq ends, ← bytes] at found
      have applied : applyTextEdits buffer edits encoding = some buffer' := by
        rw [applyTextEdits, lspEditsToByteEdits_none found, bytes]
        exact congrArg (Option.map (setEndofline · none)) applies
      refine ⟨buffer', applied, last, iff_of_true document ?_⟩
      split
      · trivial
      · next tail others order =>
          intro reaches
          have member : tail ∈ edits.map (TextEdit.resolved encoding buffer.documentText) := by
            rw [← (lastFirst_perm _).mem_iff, order]
            exact List.mem_cons_self
          exact absurd reaches (Nat.not_le.2 (short tail member))
  | some tail =>
      obtain ⟨buffer', others, front, applies, text', order, ⟨back, whole⟩, start, result, left⟩ :=
        tail_applied ends apart fits found
      have reaches := (tailOf_spec found).2.1
      obtain ⟨phantom, rope, -⟩ := rope_eq ends
      rw [← documentLenBytes_eq ends, ← bytes] at found
      obtain ⟨endofline, converted, put, deleted⟩ := lspEditsToByteEdits_some found
      have applied : applyTextEdits buffer edits encoding =
          some (setEndofline buffer' (some endofline)) := by
        rw [applyTextEdits, converted, bytes]
        exact congrArg (Option.map (setEndofline · (some endofline))) applies
      refine ⟨_, applied, ?_, ?_⟩
      · have same_text : (setEndofline buffer' (some endofline)).text = buffer'.text := rfl
        rw [same_text, text', getLast?_ensureTrailingNewline]
      rw [documentText_setEndofline, text', document_ensureTrailingNewline, order, result, List.getLast?_append]
      simp only
      by_cases empty : tail.1.new = []
      · have stood : charBefore buffer.documentText tail.1.start = front.getLast? := by
          rw [whole, ← start, charBefore_append]
        have flag : endofline = true ↔ front.getLast? = some '\n' := by
          rw [deleted empty, rope, whole, ← start, List.append_assoc, charAt_pred]
        rw [flag, empty, stood, left]
        simp only [List.getLast?_nil, Option.none_or]
        constructor
        · intro known _ _
          exact known
        · intro known
          exact known reaches trivial
      · obtain ⟨last, some_last⟩ : ∃ last, tail.1.new.getLast? = some last :=
          ⟨_, List.getLast?_eq_some_getLast empty⟩
        rw [put empty, some_last]
        constructor
        · intro _ _ none_put
          exact absurd none_put empty
        · intro _
          rfl

/-- **Text edits follow the protocol if and only if the tail's break is known.**  On a rope that ends
in a newline, in any encoding: edits that do not overlap make the document what they make it all
at once in the places of the old one, and the rope ends in a newline again, if and only if the edit
that owns the tail puts some text, or what comes to stand left of it is a newline exactly when
one stood there. -/
theorem text_edits_iff (buffer : Buffer E) (ends : buffer.text.getLast? = some '\n')
    (plain : '\r' ∉ buffer.text) (encoding : PositionEncoding) (edits : List TextEdit)
    (apart : (edits.map (TextEdit.resolved encoding buffer.documentText)).Pairwise Apart) :
    (∃ buffer', applyTextEdits buffer edits encoding = some buffer' ∧
      buffer'.documentText =
        edited (edits.map (TextEdit.resolved encoding buffer.documentText)) 0
          buffer.documentText ∧
      buffer'.text.getLast? = some '\n') ↔
    TailKnown buffer.documentText
      (edits.map (TextEdit.resolved encoding buffer.documentText)) := by
  obtain ⟨buffer', applied, last, exact_when⟩ := applyTextEdits_spec ends plain apart
  rw [← exact_when]
  constructor
  · rintro ⟨other, applied', document, -⟩
    cases applied.symm.trans applied'
    exact document
  · intro document
    exact ⟨buffer', applied, document, last⟩

end Rope

/-- Two texts put behind the last newline of `a`, in the order of the list. -/
theorem text_edits_iff_append :
    ∃ buffer', applyTextEdits (Buffer.ofText ['a', '\n'])
        [⟨⟨⟨1, 0⟩, ⟨1, 0⟩⟩, ['b']⟩, ⟨⟨⟨1, 0⟩, ⟨1, 7⟩⟩, ['c']⟩] .utf16 = some buffer' ∧
      buffer'.documentText = ['a', '\n', 'b', 'c'] ∧ buffer'.text.getLast? = some '\n' := by
  have document : edited ([⟨⟨⟨1, 0⟩, ⟨1, 0⟩⟩, ['b']⟩, ⟨⟨⟨1, 0⟩, ⟨1, 7⟩⟩, ['c']⟩].map
      (TextEdit.resolved .utf16 (Buffer.ofText ['a', '\n']).documentText)) 0
        (Buffer.ofText ['a', '\n']).documentText = ['a', '\n', 'b', 'c'] := by decide
  rw [← document]
  exact (text_edits_iff (Buffer.ofText ['a', '\n']) rfl (by decide) .utf16
    [⟨⟨⟨1, 0⟩, ⟨1, 0⟩⟩, ['b']⟩, ⟨⟨⟨1, 0⟩, ⟨1, 7⟩⟩, ['c']⟩] (by decide)).2 (by decide)

/-- A server that replaces the last line of `a`, `b` in two edits, `x` put in front of it and the line
taken out: the document should end in `x`, and ends in a newline. -/
theorem tail_break_kept :
    let buffer := Buffer.ofText ['a', '\n', 'b', '\n']
    let edits : List TextEdit := [⟨⟨⟨1, 0⟩, ⟨1, 0⟩⟩, ['x']⟩, ⟨⟨⟨1, 0⟩, ⟨2, 0⟩⟩, []⟩]
    let resolved := edits.map (TextEdit.resolved .utf8 buffer.documentText)
    resolved.Pairwise Apart ∧ edited resolved 0 buffer.documentText = ['a', '\n', 'x'] ∧
      (applyTextEdits buffer edits .utf8).map Buffer.documentText =
        some ['a', '\n', 'x', '\n'] := by
  decide

end Bemtvi.Lsp
