/-
Module: Bemtvi.Core.MarkCounts
Purpose: The counts an extmark store keeps beside its marks: how many carry virtual lines, and how
  many a gutter text of each width.  Every operation's own bookkeeping, and that it never drifts from
  the marks, for every store that calls reach.
Trusted boundary: human-reviewed model of bemtvi-core/src/extmark.rs:286-294, 431-456, 537-709 and
  821-830; the decoration that is not counted is left out, the cells of a text are a parameter, and a
  store holds fewer marks than a `usize` counts
Main exports: Payload, Counted, countGutter, CountedStores, Exact, step_refines, counts_exact
-/
import Bemtvi.Core.ExtmarksLaws
import Bemtvi.Lib.Word
import Mathlib.Data.List.MinMax

namespace Bemtvi.Core.Extmarks

open Word (checkedSub)

/-! ### What is counted -/

/-- The display widths of the graphemes of a text. -/
class CellWidths where
  cells : String → List Nat

structure VirtChunk where
  text : String
  hlGroup : Option String
deriving Repr, DecidableEq

/-- The virtual content of a mark, as far as it is counted. -/
structure VirtDecor where
  virtLines : List (List VirtChunk)
  gutterText : List VirtChunk
deriving Repr, DecidableEq

structure Payload where
  hlGroup : Option String
  priority : Nat
  decor : Option VirtDecor
deriving Repr, DecidableEq

/-- `gutter_text_width` of a decoration. -/
def VirtDecor.gutterTextWidth [CellWidths] (decor : VirtDecor) : Nat :=
  (decor.gutterText.flatMap fun chunk => CellWidths.cells chunk.text).sum

/-- `has_virt_lines` of a mark. -/
def Payload.hasVirtLines (payload : Payload) : Bool :=
  payload.decor.any fun decor => !decor.virtLines.isEmpty

/-- `gutter_width`. -/
def Payload.gutterWidth [CellWidths] (payload : Payload) : Nat :=
  (payload.decor.map VirtDecor.gutterTextWidth).getD 0

/-- A store with its counts. -/
structure Counted where
  store : ExtmarkStore Payload
  virtLinesMarks : Nat
  gutterWidths : Assoc Nat Nat

/-- `count_gutter`; `none` when a count would go below zero. -/
def countGutter (widths : Assoc Nat Nat) (width : Nat) (add : Bool) : Option (Assoc Nat Nat) :=
  if width = 0 then some widths
  else if add then some (widths.insert width ((widths.get? width).getD 0 + 1))
  else
    match widths.get? width with
    | none => some widths
    | some n =>
        if n = 0 then none
        else if n - 1 = 0 then some (widths.erase width)
        else some (widths.insert width (n - 1))

/-- How many of some marks carry virtual lines. -/
def virtLinesOf (marks : List (Extmark Payload)) : Nat :=
  marks.countP fun m => m.payload.hasVirtLines

variable [CellWidths]

/-- Count marks out, one after the other. -/
def countOut (widths : Assoc Nat Nat) (marks : List (Extmark Payload)) : Option (Assoc Nat Nat) :=
  marks.foldlM (fun widths m => countGutter widths m.payload.gutterWidth false) widths

namespace Counted

def default : Counted := ⟨.default, 0, .empty⟩

/-- `has_virt_lines` of the store. -/
def hasVirtLines (counted : Counted) : Bool := counted.virtLinesMarks > 0

/-- `gutter_text_width` of the store: the largest width that is counted. -/
def gutterTextWidth (counted : Counted) : Nat :=
  (counted.gutterWidths.entries.map Prod.fst).foldr max 0

/-- `set_with_gravity`. -/
def setWithGravity (counted : Counted) (stamps ns : Nat) (id : Option Nat) (start : Nat)
    (stop : Option Nat) (payload : Payload) (rightGravity endRightGravity : Bool) :
    Option (Counted × Nat × Nat) :=
  let (store, stamps, id) := counted.store.setWithGravity stamps ns id start stop payload
    rightGravity endRightGravity
  let replaced := counted.store.get ns id
  (countGutter counted.gutterWidths payload.gutterWidth true).bind fun widths =>
    (countOut widths replaced.toList).bind fun widths =>
      (checkedSub (counted.virtLinesMarks + payload.hasVirtLines.toNat)
        (replaced.any (·.payload.hasVirtLines)).toNat).map fun virtLines =>
          (⟨store, virtLines, widths⟩, stamps, id)

/-- `del`. -/
def del (counted : Counted) (stamps ns id : Nat) : Option (Counted × Nat × Bool) :=
  let removed := counted.store.get ns id
  let (store, stamps, existed) := counted.store.del stamps ns id
  (checkedSub counted.virtLinesMarks (removed.any (·.payload.hasVirtLines)).toNat).bind
    fun virtLines =>
      (countOut counted.gutterWidths removed.toList).map fun widths =>
        (⟨store, virtLines, widths⟩, stamps, existed)

/-- `clear`: what it drops is counted out. -/
def clear (counted : Counted) (stamps ns : Nat) (range : Option (Nat × Nat)) :
    Option (Counted × Nat) :=
  let (store, stamps) := counted.store.clear stamps ns range
  match counted.store.byNs.get? ns with
  | none => some ({ counted with store := store }, stamps)
  | some slot =>
      let dropped :=
        match range with
        | none => slot.marks.values
        | some (lo, hi) => slot.marks.values.filter fun m => lo ≤ m.start ∧ m.start < hi
      (countOut counted.gutterWidths dropped).bind fun widths =>
        (checkedSub counted.virtLinesMarks (virtLinesOf dropped)).map fun virtLines =>
          (⟨store, virtLines, widths⟩, stamps)

/-- `clear_all`. -/
def clearAll (counted : Counted) (stamps : Nat) : Counted × Nat :=
  let (store, stamps) := counted.store.clearAll stamps
  (⟨store, 0, .empty⟩, stamps)

/-- `move_namespace_into`: the other store counts out what it held, then takes on what is moved. -/
def moveNamespaceInto (counted : Counted) (stamps ns : Nat) (dst : Counted) :
    Option (Counted × Counted × Nat) :=
  let (store, dstStore, stamps) := counted.store.moveNamespaceInto stamps ns dst.store
  let displaced := ((dst.store.byNs.get? ns).map (·.marks.values)).getD []
  (checkedSub dst.virtLinesMarks (virtLinesOf displaced)).bind fun dstVirt =>
    (countOut dst.gutterWidths displaced).bind fun dstWidths =>
      match counted.store.byNs.get? ns with
      | none => some ({ counted with store := store }, ⟨dstStore, dstVirt, dstWidths⟩, stamps)
      | some slot =>
          let moved := slot.marks.values
          (checkedSub counted.virtLinesMarks (virtLinesOf moved)).bind fun virtLines =>
            (moved.foldlM (fun widths m =>
                (countGutter widths.1 m.payload.gutterWidth false).bind fun own =>
                  (countGutter widths.2 m.payload.gutterWidth true).map fun other => (own, other))
              (counted.gutterWidths, dstWidths)).map fun widths =>
                (⟨store, virtLines, widths.1⟩,
                  ⟨dstStore, dstVirt + virtLinesOf moved, widths.2⟩, stamps)

end Counted

/-! ### Stores and the calls on them -/

/-- Every store there is, with its counts. -/
structure CountedStores where
  stamps : Nat
  stores : Nat → Counted

namespace CountedStores

def initial : CountedStores where
  stamps := 0
  stores := fun _ => .default

/-- The stores without their counts. -/
def plain (s : CountedStores) : Stores Payload where
  stamps := s.stamps
  stores := fun i => (s.stores i).store

def put (s : CountedStores) (i : Nat) (counted : Counted) (stamps : Nat) : CountedStores where
  stamps := stamps
  stores := Function.update s.stores i counted

/-- A call that leaves the counts of the store it changes alone. -/
def putStore (s : CountedStores) (i : Nat) (result : ExtmarkStore Payload × Nat) : CountedStores :=
  s.put i { s.stores i with store := result.1 } result.2

/-- A call; `none` as without the counts, and when a count goes below zero. -/
def step (s : CountedStores) : Call Payload → Option CountedStores
  | .set i ns id start stop payload rightGravity endRightGravity =>
      ((s.stores i).setWithGravity s.stamps ns id start stop payload rightGravity
        endRightGravity).map fun result => s.put i result.1 result.2.1
  | .del i ns id => ((s.stores i).del s.stamps ns id).map fun result => s.put i result.1 result.2.1
  | .clear i ns range =>
      ((s.stores i).clear s.stamps ns range).map fun result => s.put i result.1 result.2
  | .clearAll i =>
      let result := (s.stores i).clearAll s.stamps
      some (s.put i result.1 result.2)
  | .moveNamespaceInto i ns j =>
      if i = j then none
      else
        ((s.stores i).moveNamespaceInto s.stamps ns (s.stores j)).map fun result =>
          (s.put i result.1 result.2.2).put j result.2.1 result.2.2
  | .adoptPositionsFrom i j textLen skip =>
      if i = j then none
      else
        some (s.putStore i ((s.stores i).store.adoptPositionsFrom s.stamps (s.stores j).store
          textLen skip))
  | .clone i j => some (s.put j { s.stores i with store := (s.stores i).store.clone } s.stamps)
  | .shift i start oldEnd newEnd =>
      if start ≤ oldEnd ∧ start ≤ newEnd then
        some (s.putStore i ((s.stores i).store.shift start oldEnd newEnd, s.stamps))
      else none
  | .startingIn i lo hi => some (s.putStore i (((s.stores i).store.startingIn lo hi).2, s.stamps))
  | .reaching i lo hi => some (s.putStore i (((s.stores i).store.reaching lo hi).2, s.stamps))

end CountedStores

/-! ### Counts of a list of payloads -/

/-- A count as a map holds it: none for zero. -/
def recorded (n : Nat) : Option Nat := if n = 0 then none else some n

/-- The widths as counted over some payloads, each positive width under its key. -/
def Tallied (widths : Assoc Nat Nat) (payloads : List Payload) : Prop :=
  ∀ width, widths.get? width =
    if width = 0 then none else recorded (payloads.countP fun payload => payload.gutterWidth = width)

variable {payloads payloads' : List Payload} {counted : Counted}

theorem Tallied.perm {widths : Assoc Nat Nat} (tallied : Tallied widths payloads)
    (perm : payloads.Perm payloads') : Tallied widths payloads' := by
  intro width
  rw [tallied width, perm.countP_eq]

/-- A payload without a width counts nowhere. -/
theorem tallied_cons_zero {widths : Assoc Nat Nat} {payload : Payload}
    (zero : payload.gutterWidth = 0) :
    Tallied widths (payload :: payloads) ↔ Tallied widths payloads := by
  unfold Tallied
  refine forall_congr' fun width => ?_
  by_cases positive : width = 0
  · rw [if_pos positive, if_pos positive]
  · rw [List.countP_cons_of_neg]
    simp only [zero, decide_eq_true_eq]
    exact Ne.symm positive

theorem countGutter_in {widths : Assoc Nat Nat} (payload : Payload)
    (tallied : Tallied widths payloads) :
    ∃ widths', countGutter widths payload.gutterWidth true = some widths' ∧
      Tallied widths' (payload :: payloads) := by
  unfold countGutter
  by_cases zero : payload.gutterWidth = 0
  · rw [if_pos zero]
    exact ⟨widths, rfl, (tallied_cons_zero zero).2 tallied⟩
  · rw [if_neg zero, if_pos rfl]
    refine ⟨_, rfl, ?_⟩
    intro width
    rw [Assoc.get?_insert, tallied payload.gutterWidth, if_neg zero]
    split
    · next same =>
        subst same
        rw [if_neg zero, List.countP_cons_of_pos (by simp)]
        unfold recorded
        rw [if_neg (Nat.succ_ne_zero _)]
        split
        · next none_yet => rw [none_yet]; rfl
        · rfl
    · next other =>
        rw [tallied width, List.countP_cons_of_neg (by simpa using Ne.symm other)]

theorem countGutter_out {widths : Assoc Nat Nat} {payload : Payload}
    (tallied : Tallied widths (payload :: payloads)) :
    ∃ widths', countGutter widths payload.gutterWidth false = some widths' ∧
      Tallied widths' payloads := by
  unfold countGutter
  by_cases zero : payload.gutterWidth = 0
  · rw [if_pos zero]
    exact ⟨widths, rfl, (tallied_cons_zero zero).1 tallied⟩
  · have here := tallied payload.gutterWidth
    rw [if_neg zero, List.countP_cons_of_pos (by simp)] at here
    unfold recorded at here
    rw [if_neg (Nat.succ_ne_zero _)] at here
    rw [if_neg zero, if_neg (by simp), here]
    simp only [Nat.succ_ne_zero, if_false, Nat.add_sub_cancel]
    have others : ∀ width, width ≠ payload.gutterWidth → widths.get? width =
        if width = 0 then none
        else recorded (payloads.countP fun payload => payload.gutterWidth = width) := by
      intro width other
      rw [tallied width, List.countP_cons_of_neg (by simpa using Ne.symm other)]
    split
    · next last =>
        refine ⟨_, rfl, ?_⟩
        intro width
        rw [Assoc.get?_erase]
        split
        · next same =>
            subst same
            rw [if_neg zero, last]
            rfl
        · next other => exact others width other
    · next more =>
        refine ⟨_, rfl, ?_⟩
        intro width
        rw [Assoc.get?_insert]
        split
        · next same =>
            subst same
            rw [if_neg zero, recorded, if_neg more]
        · next other => exact others width other

theorem countOut_spec {marks : List (Extmark Payload)} {widths : Assoc Nat Nat}
    (tallied : Tallied widths (marks.map Extmark.payload ++ payloads)) :
    ∃ widths', countOut widths marks = some widths' ∧ Tallied widths' payloads := by
  induction marks generalizing widths with
  | nil => exact ⟨widths, rfl, tallied⟩
  | cons m marks ih =>
      obtain ⟨widths', counted, tallied⟩ := countGutter_out tallied
      obtain ⟨widths'', rest, tallied⟩ := ih tallied
      refine ⟨widths'', ?_, tallied⟩
      rw [countOut, List.foldlM_cons, counted]
      exact rest

/-- What is moved is counted out of one map and into the other. -/
theorem countMoved_spec {marks : List (Extmark Payload)} {own other : Assoc Nat Nat}
    (tallied : Tallied own (marks.map Extmark.payload ++ payloads))
    (tallied' : Tallied other payloads') : ∃ widths, marks.foldlM (fun widths m =>
        (countGutter widths.1 m.payload.gutterWidth false).bind fun own =>
          (countGutter widths.2 m.payload.gutterWidth true).map fun other => (own, other))
        (own, other) = some widths ∧ Tallied widths.1 payloads ∧
      Tallied widths.2 (marks.map Extmark.payload ++ payloads') := by
  induction marks generalizing own other payloads' with
  | nil => exact ⟨(own, other), rfl, tallied, tallied'⟩
  | cons m marks ih =>
      obtain ⟨own', out, tallied⟩ := countGutter_out tallied
      obtain ⟨other', into, tallied'⟩ := countGutter_in m.payload tallied'
      obtain ⟨widths, rest, left, moved⟩ := ih tallied tallied'
      refine ⟨widths, ?_, left, moved.perm List.perm_middle⟩
      rw [List.foldlM_cons, out, Option.bind_some, into]
      exact rest

/-! ### What an operation takes out and puts in -/

section Payloads

omit [CellWidths]

/-- The payloads of some marks. -/
def slotPayloads (marks : Assoc Nat (Extmark Payload)) : List Payload :=
  marks.values.map Extmark.payload

/-- The payloads of all namespaces. -/
def payloadsOf (byNs : Assoc Nat (NsMarks Payload)) : List Payload :=
  byNs.entries.flatMap fun entry => slotPayloads entry.2.marks

theorem payloads_allMarks (store : ExtmarkStore Payload) :
    store.allMarks.map (fun mark => mark.2.payload) = payloadsOf store.byNs := by
  rw [ExtmarkStore.allMarks, List.map_flatMap, payloadsOf]
  simp only [List.map_map, slotPayloads]
  rfl

theorem slotPayloads_perm (marks : Assoc Nat (Extmark Payload)) (id : Nat) :
    (slotPayloads marks).Perm
      ((marks.get? id).toList.map Extmark.payload ++ slotPayloads (marks.erase id)) := by
  unfold slotPayloads Assoc.values
  cases here : marks.get? id with
  | none => rw [Assoc.erase_of_none here, Option.toList_none, List.map_nil, List.nil_append]
  | some m => exact ((Assoc.entries_perm here).map Prod.snd).map Extmark.payload

theorem payloadsOf_perm (byNs : Assoc Nat (NsMarks Payload)) (ns : Nat) :
    (payloadsOf byNs).Perm
      (slotPayloads ((byNs.get? ns).getD .default).marks ++ payloadsOf (byNs.erase ns)) := by
  unfold payloadsOf
  cases here : byNs.get? ns with
  | none =>
      rw [Assoc.erase_of_none here]
      exact List.Perm.refl _
  | some slot => exact (Assoc.entries_perm here).flatMap_right _

theorem payloadsOf_insert (byNs : Assoc Nat (NsMarks Payload)) (ns : Nat)
    (slot : NsMarks Payload) :
    payloadsOf (byNs.insert ns slot) = slotPayloads slot.marks ++ payloadsOf (byNs.erase ns) := rfl

/-- What keeps every payload keeps the list of them. -/
theorem payloadsOf_mapVal (byNs : Assoc Nat (NsMarks Payload))
    (f : Nat → NsMarks Payload → NsMarks Payload)
    (same : ∀ ns slot, slotPayloads (f ns slot).marks = slotPayloads slot.marks) :
    payloadsOf (byNs.mapVal f) = payloadsOf byNs := by
  unfold payloadsOf Assoc.mapVal
  rw [List.flatMap_map]
  simp only [same]

theorem slotPayloads_mapVal (marks : Assoc Nat (Extmark Payload))
    (f : Nat → Extmark Payload → Extmark Payload)
    (same : ∀ id m, (f id m).payload = m.payload) :
    slotPayloads (marks.mapVal f) = slotPayloads marks := by
  unfold slotPayloads Assoc.values Assoc.mapVal
  simp only [List.map_map]
  apply List.map_congr_left
  intro entry _
  exact same entry.1 entry.2

/-- A range drops the marks in it. -/
theorem slotPayloads_retain (marks : Assoc Nat (Extmark Payload)) (drop : Extmark Payload → Bool) :
    (slotPayloads marks).Perm ((marks.values.filter drop).map Extmark.payload ++
      slotPayloads (marks.retain fun _ m => !drop m)) := by
  have kept : slotPayloads (marks.retain fun _ m => !drop m) =
      (marks.values.filter fun m => !drop m).map Extmark.payload := by
    unfold slotPayloads Assoc.values Assoc.retain
    rw [List.filter_map]
    rfl
  rw [kept, ← List.map_append]
  exact (List.filter_append_perm drop marks.values).symm.map _

namespace ExtmarkStore

theorem set_payloads (store : ExtmarkStore Payload) (stamps ns : Nat) (id : Option Nat)
    (start : Nat) (stop : Option Nat) (payload : Payload) (rightGravity endRightGravity : Bool) :
    ∃ rest, (payloadsOf store.byNs).Perm
        (((store.get ns (store.setWithGravity stamps ns id start stop payload rightGravity
          endRightGravity).2.2).toList.map Extmark.payload) ++ rest) ∧
      payloadsOf (store.setWithGravity stamps ns id start stop payload rightGravity
        endRightGravity).1.byNs = payload :: rest := by
  have around : ∀ used, (payloadsOf store.byNs).Perm
      (((store.get ns used).toList.map Extmark.payload) ++
        (slotPayloads (((store.byNs.get? ns).getD .default).marks.erase used) ++
          payloadsOf (store.byNs.erase ns))) := by
    intro used
    have there : store.get ns used = ((store.byNs.get? ns).getD .default).marks.get? used := by
      unfold get
      cases store.byNs.get? ns <;> rfl
    rw [there, ← List.append_assoc]
    exact (payloadsOf_perm store.byNs ns).trans ((slotPayloads_perm _ used).append_right _)
  cases id with
  | none => exact ⟨_, around _, rfl⟩
  | some id => exact ⟨_, around _, rfl⟩

theorem del_payloads (store : ExtmarkStore Payload) (stamps ns id : Nat) :
    ∃ rest, (payloadsOf store.byNs).Perm
        ((store.get ns id).toList.map Extmark.payload ++ rest) ∧
      payloadsOf (store.del stamps ns id).1.byNs = rest := by
  have whole := payloadsOf_perm store.byNs ns
  have there : (store.touchStructure stamps).1.byNs = store.byNs := rfl
  unfold get
  cases slot_here : store.byNs.get? ns with
  | none =>
      refine ⟨payloadsOf store.byNs, List.Perm.refl _, ?_⟩
      simp only [del, there, slot_here]
  | some slot =>
      rw [Option.bind_some]
      cases here : slot.marks.get? id with
      | none =>
          refine ⟨payloadsOf store.byNs, List.Perm.refl _, ?_⟩
          simp only [del, there, slot_here, here]
      | some m =>
          have inner := slotPayloads_perm slot.marks id
          rw [slot_here] at whole
          rw [here] at inner
          refine ⟨slotPayloads (slot.marks.erase id) ++ payloadsOf (store.byNs.erase ns), ?_, ?_⟩
          · rw [← List.append_assoc]
            exact whole.trans (inner.append_right _)
          · simp only [del, there, slot_here, here]
            rfl

theorem clear_payloads (store : ExtmarkStore Payload) (stamps ns : Nat)
    (range : Option (Nat × Nat)) :
    (store.byNs.get? ns = none ∧
        payloadsOf (store.clear stamps ns range).1.byNs = payloadsOf store.byNs) ∨
      ∃ slot rest, store.byNs.get? ns = some slot ∧
        (payloadsOf store.byNs).Perm ((match range with
          | none => slot.marks.values
          | some (lo, hi) =>
              slot.marks.values.filter fun m => lo ≤ m.start ∧ m.start < hi).map
            Extmark.payload ++ rest) ∧
        payloadsOf (store.clear stamps ns range).1.byNs = rest := by
  have whole := payloadsOf_perm store.byNs ns
  have there : (store.touchStructure stamps).1.byNs = store.byNs := rfl
  cases here : store.byNs.get? ns with
  | none =>
      refine Or.inl ⟨rfl, ?_⟩
      simp only [clear, there, here]
  | some slot =>
      rw [here] at whole
      refine Or.inr ⟨slot, _, rfl, ?_, rfl⟩
      simp only [clear, there, here]
      cases range with
      | none => exact whole
      | some range =>
          have inner := slotPayloads_retain slot.marks fun m => range.1 ≤ m.start ∧ m.start < range.2
          simp only [decide_not] at inner ⊢
          rw [NsMarks.touch, payloadsOf_insert, ← List.append_assoc]
          exact whole.trans (inner.append_right _)

theorem move_payloads (store dst : ExtmarkStore Payload) (stamps ns : Nat) :
    ∃ rest rest', (payloadsOf store.byNs).Perm
        ((((store.byNs.get? ns).map (·.marks.values)).getD []).map Extmark.payload ++ rest) ∧
      payloadsOf (store.moveNamespaceInto stamps ns dst).1.byNs = rest ∧
      (payloadsOf dst.byNs).Perm
        ((((dst.byNs.get? ns).map (·.marks.values)).getD []).map Extmark.payload ++ rest') ∧
      payloadsOf (store.moveNamespaceInto stamps ns dst).2.1.byNs =
        (((store.byNs.get? ns).map (·.marks.values)).getD []).map Extmark.payload ++ rest' := by
  have taken : ∀ byNs : Assoc Nat (NsMarks Payload),
      (((byNs.get? ns).map (·.marks.values)).getD []).map Extmark.payload =
        slotPayloads ((byNs.get? ns).getD .default).marks := by
    intro byNs
    cases byNs.get? ns <;> rfl
  have own := payloadsOf_perm store.byNs ns
  have other := payloadsOf_perm dst.byNs ns
  rw [← taken] at own other
  refine ⟨payloadsOf (store.byNs.erase ns), payloadsOf (dst.byNs.erase ns), own, ?_, other, ?_⟩
  · have there : (store.touchStructure stamps).1.byNs = store.byNs := rfl
    simp only [moveNamespaceInto, there]
    cases here : store.byNs.get? ns with
    | none => rw [payloadsOf, payloadsOf, Assoc.erase_of_none here]; rfl
    | some slot => rfl
  · have there : (store.touchStructure stamps).1.byNs = store.byNs := rfl
    simp only [moveNamespaceInto, there]
    cases here : store.byNs.get? ns with
    | none => rfl
    | some slot => rfl

end ExtmarkStore

end Payloads

/-! ### The counts are right -/

/-- The counts of a store are those of its marks. -/
structure Kept (counted : Counted) : Prop where
  virtLines : counted.virtLinesMarks = (payloadsOf counted.store.byNs).countP Payload.hasVirtLines
  widths : Tallied counted.gutterWidths (payloadsOf counted.store.byNs)

theorem kept_default : Kept .default := by
  constructor
  · rfl
  · intro width
    split <;> rfl

/-- The counts stand where the payloads do. -/
theorem Kept.with_store (kept : Kept counted) {store : ExtmarkStore Payload}
    (same : payloadsOf store.byNs = payloadsOf counted.store.byNs) :
    Kept { counted with store := store } := by
  constructor
  · rw [same]
    exact kept.virtLines
  · rw [same]
    exact kept.widths

omit [CellWidths] in
theorem countP_virtLines (marks : List (Extmark Payload)) (payloads : List Payload) :
    (marks.map Extmark.payload ++ payloads).countP Payload.hasVirtLines =
      virtLinesOf marks + payloads.countP Payload.hasVirtLines := by
  rw [List.countP_append, List.countP_map]
  rfl

omit [CellWidths] in
theorem virtLinesOf_toList (m : Option (Extmark Payload)) :
    virtLinesOf m.toList = (m.any (·.payload.hasVirtLines)).toNat := by
  cases m with
  | none => rfl
  | some m => cases carries : m.payload.hasVirtLines <;> simp [virtLinesOf, carries]

omit [CellWidths] in
/-- What was counted in can be counted out. -/
theorem checkedSub_virtLines {n : Nat} {marks : List (Extmark Payload)}
    (whole : n = (marks.map Extmark.payload ++ payloads).countP Payload.hasVirtLines) :
    checkedSub n (virtLinesOf marks) = some (payloads.countP Payload.hasVirtLines) := by
  rw [countP_virtLines] at whole
  rw [checkedSub, if_pos (by omega), whole, Nat.add_sub_cancel_left]

theorem Kept.setWithGravity (kept : Kept counted) (stamps ns : Nat) (id : Option Nat)
    (start : Nat) (stop : Option Nat) (payload : Payload) (rightGravity endRightGravity : Bool) :
    ∃ result, counted.setWithGravity stamps ns id start stop payload rightGravity
        endRightGravity = some result ∧ Kept result.1 ∧
      (result.1.store, result.2) = counted.store.setWithGravity stamps ns id start stop payload
        rightGravity endRightGravity := by
  obtain ⟨rest, before, after⟩ := counted.store.set_payloads stamps ns id start stop payload
    rightGravity endRightGravity
  unfold Counted.setWithGravity
  generalize counted.store.setWithGravity stamps ns id start stop payload rightGravity
    endRightGravity = placed at before after ⊢
  obtain ⟨store, stamps', used⟩ := placed
  simp only at before after ⊢
  have virtLines := kept.virtLines
  rw [before.countP_eq] at virtLines
  obtain ⟨widths, into, tallied⟩ := countGutter_in payload (kept.widths.perm before)
  obtain ⟨widths', out, tallied⟩ := countOut_spec (tallied.perm List.perm_middle.symm)
  have shed : checkedSub (counted.virtLinesMarks + payload.hasVirtLines.toNat)
      ((counted.store.get ns used).any (·.payload.hasVirtLines)).toNat =
        some ((payload :: rest).countP Payload.hasVirtLines) := by
    rw [countP_virtLines, virtLinesOf_toList] at virtLines
    have more : (payload :: rest).countP Payload.hasVirtLines =
        rest.countP Payload.hasVirtLines + payload.hasVirtLines.toNat := by
      rw [List.countP_cons]
      cases payload.hasVirtLines <;> rfl
    rw [more, checkedSub, if_pos (by omega), virtLines, Option.some.injEq]
    omega
  rw [into, Option.bind_some, out, Option.bind_some, shed]
  refine ⟨_, rfl, ⟨?_, ?_⟩, rfl⟩
  · rw [after]
  · rw [after]
    exact tallied

theorem Kept.del (kept : Kept counted) (stamps ns id : Nat) :
    ∃ result, counted.del stamps ns id = some result ∧ Kept result.1 ∧
      (result.1.store, result.2) = counted.store.del stamps ns id := by
  obtain ⟨rest, before, after⟩ := counted.store.del_payloads stamps ns id
  have virtLines := kept.virtLines
  rw [before.countP_eq] at virtLines
  have shed := checkedSub_virtLines virtLines
  rw [virtLinesOf_toList] at shed
  obtain ⟨widths, out, tallied⟩ := countOut_spec (kept.widths.perm before)
  unfold Counted.del
  simp only [shed, Option.bind_some, out, Option.map_some]
  refine ⟨_, rfl, ⟨?_, ?_⟩, rfl⟩
  · rw [← after]
  · rw [after]
    exact tallied

theorem Kept.clear (kept : Kept counted) (stamps ns : Nat) (range : Option (Nat × Nat)) :
    ∃ result, counted.clear stamps ns range = some result ∧ Kept result.1 ∧
      (result.1.store, result.2) = counted.store.clear stamps ns range := by
  unfold Counted.clear
  rcases counted.store.clear_payloads stamps ns range with
    ⟨absent, same⟩ | ⟨slot, rest, here, before, after⟩
  · rw [absent]
    exact ⟨_, rfl, kept.with_store same, rfl⟩
  · have virtLines := kept.virtLines
    rw [before.countP_eq] at virtLines
    have shed := checkedSub_virtLines virtLines
    obtain ⟨widths, out, tallied⟩ := countOut_spec (kept.widths.perm before)
    rw [here]
    simp only [out, Option.bind_some, shed, Option.map_some]
    refine ⟨_, rfl, ⟨?_, ?_⟩, rfl⟩
    · rw [← after]
    · rw [after]
      exact tallied

theorem Kept.clearAll (counted : Counted) (stamps : Nat) : Kept (counted.clearAll stamps).1 :=
  ⟨rfl, kept_default.widths⟩

theorem Kept.moveNamespaceInto {dst : Counted} (kept : Kept counted) (kept' : Kept dst)
    (stamps ns : Nat) :
    ∃ result, counted.moveNamespaceInto stamps ns dst = some result ∧ Kept result.1 ∧
      Kept result.2.1 ∧ (result.1.store, result.2.1.store, result.2.2) =
        counted.store.moveNamespaceInto stamps ns dst.store := by
  obtain ⟨rest, rest', before, after, before', after'⟩ :=
    counted.store.move_payloads dst.store stamps ns
  have virtLines' := kept'.virtLines
  rw [before'.countP_eq] at virtLines'
  have shed' := checkedSub_virtLines virtLines'
  obtain ⟨widths', out', tallied'⟩ := countOut_spec (kept'.widths.perm before')
  unfold Counted.moveNamespaceInto
  simp only [shed', Option.bind_some, out']
  cases here : counted.store.byNs.get? ns with
  | none =>
      rw [here] at before after'
      refine ⟨_, rfl, ⟨?_, ?_⟩, ⟨?_, ?_⟩, rfl⟩
      · rw [after]
        exact kept.virtLines.trans (before.countP_eq _)
      · rw [after]
        exact kept.widths.perm before
      · rw [after']
        rfl
      · rw [after']
        exact tallied'
  | some slot =>
      rw [here] at before after'
      have virtLines := kept.virtLines
      rw [before.countP_eq] at virtLines
      have shed := checkedSub_virtLines virtLines
      obtain ⟨widths, moved, tallied, tallied_moved⟩ := countMoved_spec (kept.widths.perm before) tallied'
      simp only [Option.map_some, Option.getD_some] at shed moved
      simp only [shed, Option.bind_some, moved, Option.map_some]
      refine ⟨_, rfl, ⟨?_, ?_⟩, ⟨?_, ?_⟩, rfl⟩
      · rw [← after]
      · rw [after]
        exact tallied
      · rw [after', countP_virtLines]
        exact Nat.add_comm _ _
      · rw [after']
        exact tallied_moved

/-! ### Operations that count nothing -/

section Payloads

omit [CellWidths]

namespace ExtmarkStore

theorem adopt_payloads (store snap : ExtmarkStore Payload) (stamps textLen : Nat)
    (skip : List Nat) :
    payloadsOf (store.adoptPositionsFrom stamps snap textLen skip).1.byNs =
      payloadsOf store.byNs := by
  apply payloadsOf_mapVal
  intro ns slot
  split
  · rfl
  · apply slotPayloads_mapVal
    intro id m
    unfold adoptMark
    split <;> rfl

theorem clone_payloads (store : ExtmarkStore Payload) :
    payloadsOf store.clone.byNs = payloadsOf store.byNs :=
  payloadsOf_mapVal _ _ fun _ _ => rfl

theorem shift_payloads (store : ExtmarkStore Payload) (start oldEnd newEnd : Nat) :
    payloadsOf (store.shift start oldEnd newEnd).byNs = payloadsOf store.byNs := by
  unfold shift
  split
  · rfl
  · apply payloadsOf_mapVal
    intro ns slot
    exact slotPayloads_mapVal _ _ fun _ _ => rfl

theorem withIndex_payloads (store : ExtmarkStore Payload) :
    payloadsOf store.withIndex.2.byNs = payloadsOf store.byNs := by
  unfold withIndex
  split
  · rfl
  · apply payloadsOf_mapVal
    intro ns slot
    split <;> rfl

theorem startingIn_payloads (store : ExtmarkStore Payload) (lo hi : Nat) :
    payloadsOf (store.startingIn lo hi).2.byNs = payloadsOf store.byNs :=
  store.withIndex_payloads

theorem reaching_payloads (store : ExtmarkStore Payload) (lo hi : Nat) :
    payloadsOf (store.reaching lo hi).2.byNs = payloadsOf store.byNs :=
  store.withIndex_payloads

end ExtmarkStore

end Payloads

/-! ### Every store that calls reach -/

/-- The counts, and what is answered from them, are what a scan of all marks finds. -/
structure Exact (counted : Counted) : Prop where
  virtLines : counted.virtLinesMarks =
    counted.store.allMarks.countP fun mark => mark.2.payload.hasVirtLines
  widths : ∀ width, counted.gutterWidths.get? width =
    if width = 0 then none
    else recorded (counted.store.allMarks.countP fun mark => mark.2.payload.gutterWidth = width)
  hasVirtLines : counted.hasVirtLines =
    counted.store.allMarks.any fun mark => mark.2.payload.hasVirtLines
  gutterTextWidth : counted.gutterTextWidth =
    (counted.store.allMarks.map fun mark => mark.2.payload.gutterWidth).foldr max 0

theorem Kept.exact_counts (kept : Kept counted) : Exact counted := by
  have scan : ∀ test : Payload → Bool, (payloadsOf counted.store.byNs).countP test =
      counted.store.allMarks.countP fun mark => test mark.2.payload := by
    intro test
    rw [← payloads_allMarks, List.countP_map]
    rfl
  have widths : ∀ width, counted.gutterWidths.get? width =
      if width = 0 then none
      else recorded
        (counted.store.allMarks.countP fun mark => mark.2.payload.gutterWidth = width) := by
    intro width
    rw [kept.widths width, scan]
  have virtLines := kept.virtLines
  rw [scan] at virtLines
  have keyed : ∀ width, width ∈ counted.gutterWidths.entries.map Prod.fst ↔
      width ≠ 0 ∧ ∃ mark ∈ counted.store.allMarks, mark.2.payload.gutterWidth = width := by
    intro width
    have entry : width ∈ counted.gutterWidths.entries.map Prod.fst ↔
        ∃ n, counted.gutterWidths.get? width = some n := by
      constructor
      · intro member
        obtain ⟨⟨key, n⟩, here, rfl⟩ := List.mem_map.1 member
        exact ⟨n, Assoc.mem_entries.1 here⟩
      · rintro ⟨n, here⟩
        exact List.mem_map_of_mem (Assoc.mem_entries.2 here)
    rw [entry, widths width]
    by_cases zero : width = 0
    · simp [zero]
    · rw [if_neg zero]
      unfold recorded
      by_cases nothing :
          (counted.store.allMarks.countP fun mark => mark.2.payload.gutterWidth = width) = 0
      · rw [if_pos nothing]
        constructor
        · rintro ⟨n, same⟩
          cases same
        · rintro ⟨-, mark, member, same⟩
          exact absurd (decide_eq_true same) (List.countP_eq_zero.1 nothing mark member)
      · rw [if_neg nothing]
        obtain ⟨mark, member, same⟩ := List.countP_pos_iff.1 (Nat.pos_of_ne_zero nothing)
        exact ⟨fun _ => ⟨zero, mark, member, of_decide_eq_true same⟩, fun _ => ⟨_, rfl⟩⟩
  refine ⟨virtLines, widths, ?_, ?_⟩
  · unfold Counted.hasVirtLines
    rw [virtLines, Bool.eq_iff_iff, decide_eq_true_eq, gt_iff_lt, List.countP_pos_iff,
      List.any_eq_true]
  · apply Nat.le_antisymm
    · apply List.max_le_of_forall_le
      intro width member
      obtain ⟨-, mark, here, rfl⟩ := (keyed width).1 member
      exact List.le_max_of_le' 0 (List.mem_map_of_mem here) (Nat.le_refl _)
    · apply List.max_le_of_forall_le
      intro width member
      obtain ⟨mark, here, rfl⟩ := List.mem_map.1 member
      by_cases zero : mark.2.payload.gutterWidth = 0
      · rw [zero]
        exact Nat.zero_le _
      · exact List.le_max_of_le' 0 ((keyed _).2 ⟨zero, mark, here, rfl⟩) (Nat.le_refl _)

namespace CountedStores

def Kept (s : CountedStores) : Prop := ∀ i, Extmarks.Kept (s.stores i)

omit [CellWidths] in
theorem plain_put (s : CountedStores) (i : Nat) (counted : Counted) (stamps : Nat) :
    (s.put i counted stamps).plain = s.plain.put i (counted.store, stamps) := by
  unfold put plain Stores.put
  congr 1
  funext j
  by_cases here : j = i
  · subst here
    simp
  · simp [Function.update_of_ne here]

variable {s : CountedStores}

theorem Kept.put (kept : s.Kept) {i : Nat} {counted : Counted} (right : Extmarks.Kept counted)
    (stamps : Nat) : (s.put i counted stamps).Kept := by
  intro j
  unfold CountedStores.put
  by_cases here : j = i
  · subst here
    simpa using right
  · simpa [Function.update_of_ne here] using kept j

/-- A call with its counts does what it does without them, and keeps the counts right. -/
theorem step_refines (kept : s.Kept) (call : Call Payload) :
    (s.step call = none ∧ s.plain.step call = none) ∨
      ∃ next, s.step call = some next ∧ next.Kept ∧ s.plain.step call = some next.plain := by
  have carried : ∀ (i : Nat) (result : ExtmarkStore Payload × Nat),
      payloadsOf result.1.byNs = payloadsOf (s.stores i).store.byNs →
      (s.putStore i result).Kept ∧ (s.putStore i result).plain = s.plain.put i result := by
    intro i result same
    exact ⟨kept.put ((kept i).with_store same) _, plain_put _ _ _ _⟩
  cases call with
  | set i ns id start stop payload rightGravity endRightGravity =>
      obtain ⟨result, done, right, same⟩ := (kept i).setWithGravity s.stamps ns id start stop
        payload rightGravity endRightGravity
      refine Or.inr ⟨s.put i result.1 result.2.1, by rw [step, done, Option.map_some],
        kept.put right _, ?_⟩
      rw [plain_put]
      simp only [Stores.step, plain, ← same]
  | del i ns id =>
      obtain ⟨result, done, right, same⟩ := (kept i).del s.stamps ns id
      refine Or.inr ⟨s.put i result.1 result.2.1, by rw [step, done, Option.map_some],
        kept.put right _, ?_⟩
      rw [plain_put]
      simp only [Stores.step, plain, ← same]
  | clear i ns range =>
      obtain ⟨result, done, right, same⟩ := (kept i).clear s.stamps ns range
      refine Or.inr ⟨s.put i result.1 result.2, by rw [step, done, Option.map_some],
        kept.put right _, ?_⟩
      rw [plain_put]
      simp only [Stores.step, plain, ← same]
  | clearAll i =>
      refine Or.inr ⟨_, rfl, kept.put (Kept.clearAll _ _) _, ?_⟩
      rw [plain_put]
      rfl
  | moveNamespaceInto i ns j =>
      by_cases here : i = j
      · exact Or.inl ⟨by rw [step, if_pos here], by rw [Stores.step, if_pos here]⟩
      · obtain ⟨result, done, right, right', same⟩ :=
          (kept i).moveNamespaceInto (kept j) s.stamps ns
        refine Or.inr ⟨(s.put i result.1 result.2.2).put j result.2.1 result.2.2,
          by rw [step, if_neg here, done, Option.map_some], (Kept.put (kept.put right _) right' _), ?_⟩
        rw [plain_put, plain_put]
        simp only [Stores.step, plain, ← same, if_neg here]
  | adoptPositionsFrom i j textLen skip =>
      by_cases here : i = j
      · exact Or.inl ⟨by rw [step, if_pos here], by rw [Stores.step, if_pos here]⟩
      · obtain ⟨kept', plain'⟩ := carried i
          ((s.stores i).store.adoptPositionsFrom s.stamps (s.stores j).store textLen skip)
          ((s.stores i).store.adopt_payloads _ _ _ _)
        refine Or.inr ⟨_, by rw [step, if_neg here], kept', ?_⟩
        rw [plain', Stores.step, if_neg here]
        rfl
  | clone i j =>
      refine Or.inr ⟨_, rfl, kept.put ((kept i).with_store (s.stores i).store.clone_payloads) _, ?_⟩
      rw [plain_put]
      rfl
  | shift i start oldEnd newEnd =>
      by_cases forward : start ≤ oldEnd ∧ start ≤ newEnd
      · obtain ⟨kept', plain'⟩ := carried i ((s.stores i).store.shift start oldEnd newEnd,
          s.stamps) ((s.stores i).store.shift_payloads _ _ _)
        refine Or.inr ⟨_, by rw [step, if_pos forward], kept', ?_⟩
        rw [plain', Stores.step, if_pos forward]
        rfl
      · exact Or.inl ⟨by rw [step, if_neg forward], by rw [Stores.step, if_neg forward]⟩
  | startingIn i lo hi =>
      obtain ⟨kept', plain'⟩ := carried i (((s.stores i).store.startingIn lo hi).2,
        s.stamps) ((s.stores i).store.startingIn_payloads lo hi)
      refine Or.inr ⟨_, rfl, kept', ?_⟩
      rw [plain']
      rfl
  | reaching i lo hi =>
      obtain ⟨kept', plain'⟩ := carried i (((s.stores i).store.reaching lo hi).2,
        s.stamps) ((s.stores i).store.reaching_payloads lo hi)
      refine Or.inr ⟨_, rfl, kept', ?_⟩
      rw [plain']
      rfl

/-- A whole run with its counts is the run without them. -/
theorem run_refines (kept : s.Kept) (calls : List (Call Payload)) :
    (Run.run step s calls).map plain = Run.run Stores.step s.plain calls ∧
      ∀ final, Run.run step s calls = some final → final.Kept := by
  induction calls generalizing s with
  | nil =>
      refine ⟨rfl, ?_⟩
      intro final reached
      cases reached
      exact kept
  | cons call calls ih =>
      rcases step_refines kept call with ⟨stuck, stuck'⟩ | ⟨next, taken, kept', taken'⟩
      · rw [Run.run, stuck, Run.run, stuck']
        refine ⟨rfl, ?_⟩
        intro final reached
        cases reached
      · rw [Run.run, taken, Run.run, taken']
        exact ih kept'

/-- **The counts never drift.**  No call fails for a count that would go below zero, and in every
store that calls reach the counts, and what is answered from them, are what a scan of all marks
finds. -/
theorem counts_exact (calls : List (Call Payload)) :
    (Run.run step initial calls).map plain = Run.run Stores.step .initial calls ∧
      ∀ final, Run.run step initial calls = some final → ∀ i, Exact (final.stores i) := by
  obtain ⟨refines, kept⟩ := run_refines (s := initial) (fun _ => kept_default) calls
  exact ⟨refines, fun final reached i => (kept final reached i).exact_counts⟩

end CountedStores

end Bemtvi.Core.Extmarks
