/-
Module: Bemtvi.Rpc.ScanExact
Purpose: What a scan says about the bytes.  Against any value whose encoding is compatible with
  the buffer, the walk gets exactly past that encoding, runs out of bytes inside it, or rejects
  it over a budget the value really breaks.  Every buffer is compatible with some value, so
  each verdict is accounted for.
Trusted boundary: none
Main exports: Value.depthNeed, Breaks, Form, Scanned, scan_value, scanFrame_compatible
-/
import Bemtvi.Rpc.ScanLaws

namespace Bemtvi.Rpc

open Resumable (Outcome)
open Msgpack

/-! ### What a value asks of the budgets -/

mutual

/-- The depth units a value needs, as rmpv's decoder spends them: 1 for a scalar, 2 for a
container level or a bin payload, 3 for a str or ext payload. -/
def depthNeed : Value → Nat
  | .bin _ => 2
  | .str _ => 3
  | .ext _ _ => 3
  | .array items => 2 + depthNeedAll items
  | .map entries => 2 + depthNeedEntries entries
  | _ => 1

/-- Siblings share their parent's budget, so a list needs what its neediest item needs. -/
def depthNeedAll : List Value → Nat
  | [] => 0
  | item :: items => max (depthNeed item) (depthNeedAll items)

/-- The depth units a map's entries need. -/
def depthNeedEntries : List (Value × Value) → Nat
  | [] => 0
  | (key, value) :: entries => max (max (depthNeed key) (depthNeed value)) (depthNeedEntries entries)

end

theorem depthNeedEntries_eq (entries : List (Value × Value)) :
    depthNeedEntries entries = depthNeedAll (flattenEntries entries) := by
  induction entries with
  | nil => rfl
  | cons entry entries ih =>
      rcases entry with ⟨key, value⟩
      simp only [depthNeedEntries, flattenEntries, depthNeedAll, ih, Nat.max_assoc]

/-- A load of values met with `seen` values counted and `budget` depth units left breaks the
named budget. -/
def Exceeds (seen budget values depth payload : Nat) : Reject → Prop
  | .values => maxValues < seen + values
  | .depth => budget < depth
  | .payload => maxFrame < payload

/-- Nothing of the load breaks a budget. -/
structure Affords (seen budget values depth payload : Nat) : Prop where
  counted : seen + values ≤ maxValues
  shallow : depth ≤ budget
  fits : payload ≤ maxFrame

/-- `value`, as a whole frame, breaks the named budget. -/
def Breaks (why : Reject) (value : Value) : Prop :=
  Exceeds 0 maxDepth value.values (depthNeed value) value.payload why

/-- `value`, as a whole frame, is within the reader's budgets. -/
def Within (value : Value) : Prop :=
  Affords 0 maxDepth value.values (depthNeed value) value.payload

/-! ### The four wire forms

The walk tells encodings apart by `Layout` only; the eighteen formats of the grammar fall into
four forms. -/

/-- How the walk sees an encoding. -/
inductive Form : Value → List UInt8 → Prop where
  | fixed {value : Value} (marker : UInt8) (field : List UInt8)
      (shape : layout marker = .fixed field.length) (need : charge marker = depthNeed value)
      (single : value.values = 1) (small : value.payload ≤ maxFrame) :
      Form value (marker :: field)
  | payload {value : Value} (marker : UInt8) (extra : Nat) (len field : List UInt8)
      (shape : layout marker = .payload len.length extra)
      (need : charge marker = depthNeed value) (single : value.values = 1)
      (declared : beNat len = value.payload) (size : field.length = extra + beNat len) :
      Form value (marker :: (len ++ field))
  | container {value : Value} (marker : UInt8) (items : List Value) (body : List UInt8)
      (shape : layout marker = .container items.length) (parts : EncodesAll items body)
      (need : depthNeed value = 2 + depthNeedAll items)
      (total : value.values = 1 + valuesAll items) (small : value.payload = payloadAll items) :
      Form value (marker :: body)
  | sized {value : Value} (marker : UInt8) (each : Nat) (len : List UInt8) (items : List Value)
      (body : List UInt8) (shape : layout marker = .sized len.length each)
      (declared : beNat len * each = items.length) (parts : EncodesAll items body)
      (need : depthNeed value = 2 + depthNeedAll items)
      (total : value.values = 1 + valuesAll items) (small : value.payload = payloadAll items) :
      Form value (marker :: (len ++ body))

theorem layout_fixstr (size : Fin 32) :
    layout (UInt8.ofNat (0xa0 + size.val)) = .fixed size.val ∧
      charge (UInt8.ofNat (0xa0 + size.val)) = 3 := by
  revert size
  decide

theorem layout_fixarray (count : Fin 16) :
    layout (UInt8.ofNat (0x90 + count.val)) = .container count.val := by
  revert count
  decide

theorem layout_fixmap (count : Fin 16) :
    layout (UInt8.ofNat (0x80 + count.val)) = .container (2 * count.val) := by
  revert count
  decide

theorem layout_int (width : Fin 4) :
    (layout (UInt8.ofNat (0xcc + width.val)) = .fixed (2 ^ width.val) ∧
      charge (UInt8.ofNat (0xcc + width.val)) = 1) ∧
    layout (UInt8.ofNat (0xd0 + width.val)) = .fixed (2 ^ width.val) ∧
      charge (UInt8.ofNat (0xd0 + width.val)) = 1 := by
  revert width
  decide

theorem layout_payload (width : Fin 3) :
    (layout (UInt8.ofNat (0xd9 + width.val)) = .payload (2 ^ width.val) 0 ∧
      charge (UInt8.ofNat (0xd9 + width.val)) = 3) ∧
    (layout (UInt8.ofNat (0xc4 + width.val)) = .payload (2 ^ width.val) 0 ∧
      charge (UInt8.ofNat (0xc4 + width.val)) = 2) ∧
    layout (UInt8.ofNat (0xc7 + width.val)) = .payload (2 ^ width.val) 1 ∧
      charge (UInt8.ofNat (0xc7 + width.val)) = 3 := by
  revert width
  decide

theorem layout_fixext (width : Fin 5) :
    layout (UInt8.ofNat (0xd4 + width.val)) = .fixed (2 ^ width.val + 1) ∧
      charge (UInt8.ofNat (0xd4 + width.val)) = 3 := by
  revert width
  decide

theorem layout_sized (width : Fin 2) :
    layout (UInt8.ofNat (0xdc + width.val)) = .sized (2 * 2 ^ width.val) 1 ∧
      layout (UInt8.ofNat (0xde + width.val)) = .sized (2 * 2 ^ width.val) 2 := by
  revert width
  decide

/-- One-byte scalars. -/
theorem layout_fixint (byte : UInt8) (single : byte.toNat < 0x80 ∨ 0xe0 ≤ byte.toNat) :
    layout byte = .fixed 0 ∧ charge byte = 1 := by
  have every : ∀ number : Fin 256, (number.val < 0x80 ∨ 0xe0 ≤ number.val) →
      layout (UInt8.ofNat number.val) = .fixed 0 ∧ charge (UInt8.ofNat number.val) = 1 := by
    decide +kernel
  have this := every ⟨byte.toNat, byte.toNat_lt⟩ single
  rwa [UInt8.ofNat_toNat] at this

variable {bytes back buffer front field buf body : List UInt8} {value : Value} {marker : UInt8}
  {owed : Nat} {st : FrameScan} {items : List Value}

/-- **Every encoding has one of the four forms.** -/
theorem Encodes.form (enc : Encodes value bytes) : Form value bytes := by
  cases enc with
  | nil => exact .fixed 0xc0 [] (by decide) (by decide) rfl (Nat.zero_le _)
  | reserved => exact .fixed 0xc1 [] (by decide) (by decide) rfl (Nat.zero_le _)
  | bool value =>
      cases value with
      | false => exact .fixed 0xc2 [] (by decide) (by decide) rfl (Nat.zero_le _)
      | true => exact .fixed 0xc3 [] (by decide) (by decide) rfl (Nat.zero_le _)
  | posFixint byte small =>
      rcases layout_fixint byte (Or.inl small) with ⟨shape, need⟩
      exact .fixed byte [] shape need rfl (Nat.zero_le _)
  | negFixint byte large =>
      rcases layout_fixint byte (Or.inr large) with ⟨shape, need⟩
      exact .fixed byte [] shape need rfl (Nat.zero_le _)
  | uint width field size =>
      rcases (layout_int width).1 with ⟨shape, need⟩
      exact .fixed _ field (by rw [size, shape]) need rfl (Nat.zero_le _)
  | sint width field size =>
      rcases (layout_int width).2 with ⟨shape, need⟩
      exact .fixed _ field (by rw [size, shape]) need rfl (Nat.zero_le _)
  | f32 field size => exact .fixed 0xca field (by rw [size]; decide) rfl rfl (Nat.zero_le _)
  | f64 field size => exact .fixed 0xcb field (by rw [size]; decide) rfl rfl (Nat.zero_le _)
  | fixstr field small =>
      rcases layout_fixstr ⟨field.length, small⟩ with ⟨shape, need⟩
      refine .fixed _ field shape need rfl ?_
      exact (Nat.le_of_lt small).trans (by decide)
  | str width len field size declared =>
      rcases (layout_payload width).1 with ⟨shape, need⟩
      exact .payload _ 0 len field (by rw [size, shape]) need rfl declared (by omega)
  | bin width len field size declared =>
      rcases (layout_payload width).2.1 with ⟨shape, need⟩
      exact .payload _ 0 len field (by rw [size, shape]) need rfl declared (by omega)
  | fixext width tag data size =>
      rcases layout_fixext width with ⟨shape, need⟩
      refine .fixed _ (tag :: data) (by rw [List.length_cons, size, shape]) need rfl ?_
      have narrow : 2 ^ width.val ≤ 2 ^ 4 := Nat.pow_le_pow_right (by decide) (by omega)
      exact (size ▸ narrow).trans (by decide)
  | ext width len tag data size declared =>
      rcases (layout_payload width).2.2 with ⟨shape, need⟩
      exact .payload _ 1 len (tag :: data) (by rw [size, shape]) need rfl declared
        (by rw [List.length_cons, declared, Nat.add_comm])
  | fixarray items body small parts =>
      exact .container _ items body (layout_fixarray ⟨items.length, small⟩) parts rfl rfl rfl
  | array width len items body size declared parts =>
      exact .sized _ 1 len items body (by rw [size, (layout_sized width).1])
        (by rw [Nat.mul_one, declared]) parts rfl rfl rfl
  | fixmap entries body small parts =>
      refine .container _ (flattenEntries entries) body ?_ parts ?_ ?_ ?_
      · rw [flattenEntries_length]
        exact layout_fixmap ⟨entries.length, small⟩
      · rw [depthNeed, depthNeedEntries_eq]
      · rw [Value.values, valuesEntries_eq]
      · rw [Value.payload, payloadEntries_eq]
  | map width len entries body size declared parts =>
      refine .sized _ 2 len (flattenEntries entries) body (by rw [size, (layout_sized width).2])
        ?_ parts ?_ ?_ ?_
      · rw [flattenEntries_length, declared, Nat.mul_comm]
      · rw [depthNeed, depthNeedEntries_eq]
      · rw [Value.values, valuesEntries_eq]
      · rw [Value.payload, payloadEntries_eq]

/-! ### Fields against the buffer -/

theorem prefix_append_iff :
    front ++ back <+: buffer ↔ front <+: buffer ∧ back <+: buffer.drop front.length := by
  constructor
  · intro whole
    rcases whole with ⟨rest, rfl⟩
    refine ⟨⟨back ++ rest, by simp⟩, ?_⟩
    rw [List.append_assoc, List.drop_left]
    exact List.prefix_append back rest
  · rintro ⟨⟨rest, rfl⟩, tail⟩
    rw [List.drop_left] at tail
    exact (List.prefix_append_right_inj front).2 tail

/-- The front of something compatible with a buffer is, too. -/
theorem compatible_front (compat : Compatible (front ++ back) buffer) :
    Compatible front buffer := by
  rcases compat with short | long
  · exact Or.inl ((List.prefix_append front back).trans short)
  · rcases Nat.le_total front.length buffer.length with inside | outside
    · exact Or.inl (List.prefix_of_prefix_length_le (List.prefix_append front back) long inside)
    · exact Or.inr (List.prefix_of_prefix_length_le long (List.prefix_append front back) outside)

/-- And the back is compatible with what the front leaves. -/
theorem compatible_back (compat : Compatible (front ++ back) buffer) :
    Compatible back (buffer.drop front.length) := by
  rcases compat with short | ⟨rest, long⟩
  · exact Or.inl (prefix_append_iff.1 short).2
  · refine Or.inr ?_
    have back_eq : back = (buffer ++ rest).drop front.length := by rw [long, List.drop_left]
    rw [back_eq, List.drop_append]
    exact List.prefix_append _ _

/-- A field that is compatible with the buffer has arrived exactly when it is short enough. -/
theorem prefix_iff_length (compat : Compatible field buffer) :
    field <+: buffer ↔ field.length ≤ buffer.length := by
  constructor
  · intro arrived
    exact arrived.length_le
  · intro short
    rcases compat with arrived | long
    · exact arrived
    · rw [long.eq_of_length_le short]

theorem shift_or_eq (total : Nat) (byte : UInt8) :
    total <<< 8 ||| byte.toNat = total * 256 + byte.toNat := by
  rw [Nat.shiftLeft_eq, Nat.mul_comm, ← Nat.two_pow_add_eq_or_of_lt byte.toNat_lt, Nat.mul_comm]

/-- The source's fold is the big-endian reading. -/
theorem fold_eq_beNat (bytes : List UInt8) :
    bytes.foldl (fun acc b => acc <<< 8 ||| b.toNat) 0 = beNat bytes := by
  unfold beNat
  congr
  funext total byte
  exact shift_or_eq total byte

/-- A length field is read as declared, or has not arrived. -/
theorem readBe_compatible {pos : Nat} (inside : pos ≤ buf.length)
    (compat : Compatible field (buf.drop pos)) : (field <+: buf.drop pos ∧
      readBe buf pos field.length = some (beNat field, pos + field.length)) ∨
    (¬ field <+: buf.drop pos ∧ readBe buf pos field.length = none) := by
  have arrived_iff := prefix_iff_length compat
  rw [List.length_drop] at arrived_iff
  by_cases arrived : field <+: buf.drop pos
  · refine Or.inl ⟨arrived, ?_⟩
    have fits : pos + field.length ≤ buf.length := by
      have := arrived_iff.1 arrived
      omega
    rw [readBe, if_pos fits, fold_eq_beNat, ← List.prefix_iff_eq_take.1 arrived]
  · refine Or.inr ⟨arrived, ?_⟩
    rw [readBe, if_neg]
    intro fits
    exact arrived (arrived_iff.2 (by omega))

/-- A payload is skipped, or has not arrived. -/
theorem skip_compatible {pos : Nat} (inside : pos ≤ buf.length)
    (compat : Compatible field (buf.drop pos)) :
    (field <+: buf.drop pos ∧ skip buf pos field.length = some (pos + field.length)) ∨
    (¬ field <+: buf.drop pos ∧ skip buf pos field.length = none) := by
  have arrived_iff := prefix_iff_length compat
  rw [List.length_drop] at arrived_iff
  by_cases arrived : field <+: buf.drop pos
  · refine Or.inl ⟨arrived, ?_⟩
    have := arrived_iff.1 arrived
    rw [skip, if_neg (by omega)]
  · refine Or.inr ⟨arrived, ?_⟩
    rw [skip, if_pos]
    by_contra fits
    exact arrived (arrived_iff.2 (by omega))

/-! ### Big steps -/

/-- `st'` stands just past `length` bytes that `st` was about to walk: `values` more are counted,
its level owes `owed`, and no lower level has changed. -/
structure Past (st st' : FrameScan) (owed values length : Nat) : Prop where
  walking : st'.Walking
  depth : st'.depth = st.depth
  owes : st'.stack[st.depth - 1]? = some owed
  below : ∀ level, level < st.depth - 1 → st'.stack[level]? = st.stack[level]?
  counted : st'.seen = st.seen + values
  moved : st'.pos = st.pos + length

/-- What the walk makes of `bytes`, the encoding of a load of values, from `st`: it gets past
exactly these bytes, or it starves inside them, or it rejects a budget the load breaks. -/
inductive Scanned (buf : List UInt8) (st : FrameScan) (owed : Nat) (bytes : List UInt8)
    (values depth payload : Nat) : Prop where
  | past (st' : FrameScan) (same : scanLoop buf st = scanLoop buf st')
      (past : Past st st' owed values bytes.length) (arrived : bytes <+: buf.drop st.pos)
      (affords : Affords st.seen (maxDepth - 2 * (st.depth - 1)) values depth payload)
  | starved (walk : FrameScan) (stop : scanLoop buf st = .incomplete walk)
      (short : ¬ bytes <+: buf.drop st.pos)
  | rejected (why : Reject) (stop : scanLoop buf st = .reject (.tooLarge why))
      (exceeds : Exceeds st.seen (maxDepth - 2 * (st.depth - 1)) values depth payload why)

/-- A walk ready for the next of its level's values. -/
structure Ready (buf : List UInt8) (st : FrameScan) (owed : Nat) : Prop where
  walking : st.Walking
  deep : 0 < st.depth
  owes : st.stack[st.depth - 1]? = some owed
  inside : st.pos ≤ buf.length

/-- An encoding's marker is claimed, or the walk ends before it. -/
theorem scan_marker {rest : List UInt8} (ready : Ready buf st (owed + 1))
    (compat : Compatible (marker :: rest) (buf.drop st.pos)) :
    (Claimed buf st owed marker (maxDepth - 2 * (st.depth - 1)) ∧ st.pos + 1 ≤ buf.length ∧
      Compatible rest (buf.drop (st.pos + 1)) ∧
      (marker :: rest <+: buf.drop st.pos ↔ rest <+: buf.drop (st.pos + 1))) ∨
    (∃ walk, scanLoop buf st = .incomplete walk ∧ ¬ marker :: rest <+: buf.drop st.pos) ∨
    (scanLoop buf st = .reject (.tooLarge .values) ∧ maxValues < st.seen + 1) ∨
    (scanLoop buf st = .reject (.tooLarge .depth) ∧
      maxDepth - 2 * (st.depth - 1) < charge marker) := by
  have known := ready.walking.budget_some ready.deep
  have marker_of : ∀ byte : UInt8, buf[st.pos]? = some byte →
      buf.drop st.pos = byte :: buf.drop (st.pos + 1) ∧ byte = marker := by
    intro byte arrived
    rcases List.getElem?_eq_some_iff.1 arrived with ⟨bound, value⟩
    have split : buf.drop st.pos = byte :: buf.drop (st.pos + 1) := by
      rw [List.drop_eq_getElem_cons bound, value]
    rw [split] at compat
    rcases compat with short | long
    · exact ⟨split, (List.cons_prefix_cons.1 short).1.symm⟩
    · exact ⟨split, (List.cons_prefix_cons.1 long).1⟩
  rcases turn_cases buf st with ⟨finished, -⟩ | ⟨owed', byte, budget, claimed⟩ |
    ⟨_, -, -, missing, left⟩ | ⟨_, -, room, full⟩ |
    ⟨_, byte, budget, -, -, arrived, budgeted, poor, full⟩ | ⟨-, broken⟩
  · rw [ready.owes] at finished
    cases finished
  · have owes := claimed.owes
    have budgeted := claimed.budgeted
    rw [ready.owes] at owes
    rw [known] at budgeted
    cases owes
    cases budgeted
    rcases marker_of byte claimed.arrived with ⟨split, rfl⟩
    rw [split] at compat ⊢
    refine Or.inl ⟨claimed, (List.getElem?_eq_some_iff.1 claimed.arrived).1, ?_, ?_⟩
    · rcases compat with short | long
      · exact Or.inl (List.cons_prefix_cons.1 short).2
      · exact Or.inr (List.cons_prefix_cons.1 long).2
    · rw [List.cons_prefix_cons]
      exact and_iff_right rfl
  · refine Or.inr (Or.inl ⟨_, scanLoop_leave ready.deep left, ?_⟩)
    rw [List.getElem?_eq_none_iff] at missing
    rw [List.drop_eq_nil_of_le missing, List.prefix_nil]
    exact List.cons_ne_nil marker rest
  · have left := full []
    rw [List.append_nil] at left
    exact Or.inr (Or.inr (Or.inl ⟨scanLoop_leave ready.deep left, room⟩))
  · have left := full []
    rw [List.append_nil] at left
    rw [known] at budgeted
    cases budgeted
    rcases marker_of byte arrived with ⟨-, rfl⟩
    exact Or.inr (Or.inr (Or.inr ⟨scanLoop_leave ready.deep left, poor⟩))
  · have left := broken []
    rw [List.append_nil] at left
    exact absurd left (turn_ne_outOfBounds buf ready.walking ready.deep)

/-- The state past a scalar, str, bin or ext. -/
theorem past_leaf (ready : Ready buf st (owed + 1)) (length : Nat) :
    Past st { st.pastMarker owed with pos := st.pos + length } owed 1 length where
  walking := ready.walking.congr rfl rfl
  depth := rfl
  owes := by
    simp only [FrameScan.pastMarker, FrameScan.claim, Nat.add_sub_cancel]
    rw [Vector.getElem?_setIfInBounds, if_pos rfl, if_pos ready.walking.in_range]
  below := by
    intro level lower
    simp only [FrameScan.pastMarker, FrameScan.claim]
    rw [Vector.getElem?_setIfInBounds, if_neg (by omega)]
  counted := rfl
  moved := rfl

/-- A scalar, or another value whose length its marker fixes. -/
theorem scan_fixed {payload : Nat} (ready : Ready buf st (owed + 1))
    (compat : Compatible (marker :: field) (buf.drop st.pos))
    (shape : layout marker = .fixed field.length) (small : payload ≤ maxFrame) :
    Scanned buf st owed (marker :: field) 1 (charge marker) payload := by
  rcases scan_marker ready compat with ⟨claimed, inside, rest, whole⟩ | ⟨walk, stop, short⟩ |
    ⟨stop, room⟩ | ⟨stop, poor⟩
  · have step := turn_claimed claimed
    rw [shape] at step
    rcases skip_compatible inside rest with ⟨arrived, skipped⟩ | ⟨missing, skipped⟩
    · simp only [FrameScan.body, FrameScan.pastMarker, skipped] at step
      refine .past _ (scanLoop_continue ready.deep step) ?_ (whole.2 arrived)
        ⟨claimed.counted, claimed.affords, small⟩
      have landed := past_leaf ready (marker :: field).length
      rw [List.length_cons, Nat.add_comm field.length, ← Nat.add_assoc] at landed
      rw [List.length_cons, Nat.add_comm field.length]
      exact landed
    · simp only [FrameScan.body, FrameScan.pastMarker, skipped] at step
      exact .starved _ (scanLoop_leave ready.deep step) (fun arrived => missing (whole.1 arrived))
  · exact .starved walk stop short
  · exact .rejected .values stop room
  · exact .rejected .depth stop poor

/-- A value whose length field its marker announces. -/
theorem scan_payload {len : List UInt8} {extra : Nat} (ready : Ready buf st (owed + 1))
    (compat : Compatible (marker :: (len ++ field)) (buf.drop st.pos))
    (shape : layout marker = .payload len.length extra) (size : field.length = extra + beNat len) :
    Scanned buf st owed (marker :: (len ++ field)) 1 (charge marker) (beNat len) := by
  rcases scan_marker ready compat with ⟨claimed, inside, rest, whole⟩ | ⟨walk, stop, short⟩ |
    ⟨stop, room⟩ | ⟨stop, poor⟩
  · have step := turn_claimed claimed
    rw [shape] at step
    rw [prefix_append_iff, List.drop_drop] at whole
    rcases readBe_compatible inside (compatible_front rest) with
      ⟨len_arrived, read⟩ | ⟨missing, read⟩
    · by_cases fits : beNat len ≤ maxFrame
      · have len_inside : st.pos + 1 + len.length ≤ buf.length := (readBe_eq_some read).1
        have back := compatible_back rest
        rw [List.drop_drop] at back
        rcases skip_compatible len_inside back with ⟨arrived, skipped⟩ | ⟨missing, skipped⟩
        · rw [size] at skipped
          simp only [FrameScan.body, FrameScan.pastMarker, read, skipped,
            Nat.not_lt.2 fits, if_false] at step
          refine .past _ (scanLoop_continue ready.deep step) ?_ (whole.2 ⟨len_arrived, arrived⟩)
            ⟨claimed.counted, claimed.affords, fits⟩
          have landed := past_leaf ready (marker :: (len ++ field)).length
          have moved : st.pos + (marker :: (len ++ field)).length =
              st.pos + 1 + len.length + (extra + beNat len) := by
            rw [List.length_cons, List.length_append, size]
            omega
          rw [moved] at landed
          exact landed
        · rw [size] at skipped
          simp only [FrameScan.body, FrameScan.pastMarker, read, skipped,
            Nat.not_lt.2 fits, if_false] at step
          exact .starved _ (scanLoop_leave ready.deep step)
            (fun arrived => missing (whole.1 arrived).2)
      · have over_limit : beNat len > maxFrame := Nat.not_le.1 fits
        simp only [FrameScan.body, FrameScan.pastMarker, read, over_limit, if_true,
          Turn.tooLarge] at step
        exact .rejected .payload (scanLoop_leave ready.deep step) over_limit
    · simp only [FrameScan.body, FrameScan.pastMarker, read] at step
      exact .starved _ (scanLoop_leave ready.deep step)
        (fun arrived => missing (whole.1 arrived).1)
  · exact .starved walk stop short
  · exact .rejected .values stop room
  · exact .rejected .depth stop poor

/-! ### Values in a row, and the levels that hold them -/

/-- A broken budget stays broken under a larger load. -/
theorem Exceeds.mono {seen budget values depth payload values' depth' payload' : Nat}
    {why : Reject} (exceeds : Exceeds seen budget values depth payload why)
    (more : values ≤ values') (deeper : depth ≤ depth') (longer : payload ≤ payload') :
    Exceeds seen budget values' depth' payload' why := by
  cases why with
  | values => exact Nat.lt_of_lt_of_le exceeds (Nat.add_le_add_left more seen)
  | depth => exact Nat.lt_of_lt_of_le exceeds deeper
  | payload => exact Nat.lt_of_lt_of_le exceeds longer

/-- Two loads walked one after the other. -/
theorem Scanned.append {owed' : Nat} {values depth payload values' depth' payload' : Nat}
    (first : Scanned buf st owed' front values depth payload)
    (second : ∀ st', Past st st' owed' values front.length → st'.seen ≤ maxValues →
      front <+: buf.drop st.pos → Scanned buf st' owed back values' depth' payload') :
    Scanned buf st owed (front ++ back) (values + values') (max depth depth')
      (max payload payload') := by
  cases first with
  | starved walk stop short =>
      exact .starved walk stop (fun whole => short (prefix_append_iff.1 whole).1)
  | rejected why stop exceeds =>
      exact .rejected why stop
        (exceeds.mono (Nat.le_add_right _ _) (Nat.le_max_left _ _) (Nat.le_max_left _ _))
  | past st' same past arrived affords =>
      have whole : front ++ back <+: buf.drop st.pos ↔ back <+: buf.drop st'.pos := by
        rw [prefix_append_iff, List.drop_drop, past.moved]
        exact and_iff_right arrived
      have counted : st'.seen ≤ maxValues := past.counted ▸ affords.counted
      cases second st' past counted arrived with
      | starved walk stop short =>
          exact .starved walk (same.trans stop) (fun arrived => short (whole.1 arrived))
      | rejected why stop exceeds =>
          refine .rejected why (same.trans stop) ?_
          rw [past.depth, past.counted] at exceeds
          cases why with
          | values => exact Nat.lt_of_lt_of_eq exceeds (Nat.add_assoc _ _ _)
          | depth => exact Nat.lt_of_lt_of_le exceeds (Nat.le_max_right _ _)
          | payload => exact Nat.lt_of_lt_of_le exceeds (Nat.le_max_right _ _)
      | past st'' same' past' arrived' affords' =>
          rw [past.depth, past.counted] at affords'
          refine .past st'' (same.trans same') ?_ (whole.2 arrived') ?_
          · refine ⟨past'.walking, past'.depth.trans past.depth, ?_, ?_, ?_, ?_⟩
            · rw [← past.depth]
              exact past'.owes
            · intro level lower
              rw [past'.below level (by rw [past.depth]; exact lower), past.below level lower]
            · rw [past'.counted, past.counted, Nat.add_assoc]
            · rw [past'.moved, past.moved, List.length_append, Nat.add_assoc]
          · exact ⟨Nat.add_assoc st.seen values values' ▸ affords'.counted,
              Nat.max_le.2 ⟨affords.shallow, affords'.shallow⟩,
              Nat.max_le.2 ⟨affords.fits, affords'.fits⟩⟩

/-- A walk past some values is ready for the next. -/
theorem Past.ready {st' : FrameScan} {values : Nat} (past : Past st st' owed values front.length)
    (deep : 0 < st.depth) (inside : st.pos ≤ buf.length) (arrived : front <+: buf.drop st.pos) :
    Ready buf st' owed where
  walking := past.walking
  deep := past.depth ▸ deep
  owes := past.depth ▸ past.owes
  inside := by
    have bound := arrived.length_le
    rw [List.length_drop] at bound
    rw [past.moved]
    omega

/-- Every value no longer than `size` bytes is scanned as it should be. -/
def ScansUpTo (buf : List UInt8) (size : Nat) : Prop :=
  ∀ {value : Value} {bytes : List UInt8} {st : FrameScan} {owed : Nat}, Encodes value bytes →
    bytes.length ≤ size → Ready buf st (owed + 1) → Compatible bytes (buf.drop st.pos) →
      Scanned buf st owed bytes value.values (depthNeed value) value.payload

/-- The values of one level, walked one after the other. -/
theorem scan_items {size : Nat} (single : ScansUpTo buf size) (parts : EncodesAll items body)
    (bound : body.length ≤ size) (ready : Ready buf st (owed + items.length))
    (counted : st.seen ≤ maxValues) (compat : Compatible body (buf.drop st.pos)) :
    Scanned buf st owed body (valuesAll items) (depthNeedAll items) (payloadAll items) := by
  induction items generalizing body st with
  | nil =>
      cases parts
      exact .past st rfl ⟨ready.walking, rfl, ready.owes, fun _ _ => rfl, rfl, rfl⟩
        List.nil_prefix ⟨counted, Nat.zero_le _, Nat.zero_le _⟩
  | cons item items ih =>
      cases parts with
      | cons head tail =>
          rename_i bytes rest
          rw [List.length_append] at bound
          have first := single head (by omega) ready (compatible_front compat)
          refine first.append (fun st' past counted' arrived => ?_)
          refine ih tail (by omega) (past.ready ready.deep ready.inside arrived) counted' ?_
          have back := compatible_back compat
          rw [List.drop_drop, ← past.moved] at back
          exact back

/-- The walk with a container's level pushed. -/
def FrameScan.pushed (st : FrameScan) (owed pos count : Nat) : FrameScan where
  pos := pos
  seen := st.seen + 1
  budget := st.budget.setIfInBounds st.depth (maxDepth - 2 * (st.depth - 1) - 2)
  stack := (st.stack.setIfInBounds (st.depth - 1) owed).setIfInBounds st.depth count
  depth := st.depth + 1

theorem container_pushes (st : FrameScan) {budget count : Nat}
    (room : st.seen + count ≤ maxValues) (shallow : st.depth < maxDepth) :
    st.container budget count = .continue { st with
      budget := st.budget.setIfInBounds st.depth (budget - 2)
      stack := st.stack.setIfInBounds st.depth count
      depth := st.depth + 1 } := by
  rw [FrameScan.container, if_neg (Nat.not_lt.2 room), if_pos shallow]

theorem container_full (st : FrameScan) {budget count : Nat}
    (full : maxValues < st.seen + count) : st.container budget count = .tooLarge .values := by
  rw [FrameScan.container, if_pos full]

/-- A container whose header has arrived: its level is pushed, walked and popped. -/
theorem scan_container (header : List UInt8) (pos : Nat) (ready : Ready buf st (owed + 1))
    (claimed : Claimed buf st owed marker (maxDepth - 2 * (st.depth - 1)))
    (two : charge marker = 2)
    (step : turn buf st = { st.pastMarker owed with pos := pos }.container
      (maxDepth - 2 * (st.depth - 1)) items.length) (arrived : header <+: buf.drop st.pos)
    (moved : pos = st.pos + header.length)
    (walked : ∀ st', Ready buf st' (0 + items.length) → st'.seen ≤ maxValues → st'.pos = pos →
      Scanned buf st' 0 body (valuesAll items) (depthNeedAll items) (payloadAll items)) :
    Scanned buf st owed (header ++ body) (1 + valuesAll items) (2 + depthNeedAll items)
      (payloadAll items) := by
  have affords := claimed.affords
  rw [two] at affords
  have shallow : st.depth < maxDepth := by
    have bound := ready.walking.shallow
    unfold maxDepth at *
    omega
  have declared := length_le_valuesAll items
  have inside : pos ≤ buf.length := by
    have bound := arrived.length_le
    have start := ready.inside
    rw [List.length_drop] at bound
    omega
  by_cases room : st.seen + 1 + items.length ≤ maxValues
  · have pushes : { st.pastMarker owed with pos := pos }.container
        (maxDepth - 2 * (st.depth - 1)) items.length =
          .continue (st.pushed owed pos items.length) :=
      container_pushes { st.pastMarker owed with pos := pos } room shallow
    have run := scanLoop_continue ready.deep (step.trans pushes)
    have walking : (st.pushed owed pos items.length).Walking :=
      container_walking { st.pastMarker owed with pos := pos }
        (ready.walking.congr rfl rfl) ready.deep affords pushes
    have level_ready : Ready buf (st.pushed owed pos items.length) (0 + items.length) := by
      refine ⟨walking, Nat.succ_pos _, ?_, inside⟩
      rw [Nat.zero_add]
      simp only [FrameScan.pushed, Nat.add_sub_cancel]
      rw [Vector.getElem?_setIfInBounds, if_pos rfl, if_pos shallow]
    have below_budget : maxDepth - 2 * st.depth = maxDepth - 2 * (st.depth - 1) - 2 := by
      have deep := ready.deep
      omega
    have whole : header ++ body <+: buf.drop st.pos ↔ body <+: buf.drop pos := by
      rw [prefix_append_iff, List.drop_drop, ← moved]
      exact and_iff_right arrived
    cases walked _ level_ready (claimed.counted) rfl with
    | starved walk stop short =>
        exact .starved walk (run.trans stop) (fun arrived => short (whole.1 arrived))
    | rejected why stop exceeds =>
        refine .rejected why (run.trans stop) ?_
        simp only [FrameScan.pushed, Nat.add_sub_cancel, below_budget] at exceeds
        cases why with
        | values => exact Nat.lt_of_lt_of_eq exceeds (Nat.add_assoc _ _ _)
        | depth => exact Nat.sub_lt_iff_lt_add affords |>.1 exceeds |>.trans_eq (Nat.add_comm _ _)
        | payload => exact exceeds
    | past st' same past arrived' affords' =>
        have popped : turn buf st' = .continue { st' with depth := st'.depth - 1 } := by
          apply turn_pop
          rw [past.depth]
          exact past.owes
        have deep' : 0 < st'.depth := by
          rw [past.depth]
          exact Nat.succ_pos _
        simp only [FrameScan.pushed, Nat.add_sub_cancel, below_budget] at affords'
        refine .past _ ((run.trans same).trans (scanLoop_continue deep' popped)) ?_
          (whole.2 arrived') ?_
        · have level : st'.depth - 1 = st.depth := by
            rw [past.depth]
            rfl
          have lower := past.below
          simp only [FrameScan.pushed, Nat.add_sub_cancel] at lower
          refine ⟨turn_walking past.walking deep' popped, level, ?_, ?_, ?_, ?_⟩
          · have deep := ready.deep
            rw [lower _ (Nat.sub_lt deep Nat.one_pos), Vector.getElem?_setIfInBounds,
              if_neg (by omega), Vector.getElem?_setIfInBounds, if_pos rfl,
              if_pos ready.walking.in_range]
          · intro level low
            rw [lower level (by omega), Vector.getElem?_setIfInBounds, if_neg (by omega),
              Vector.getElem?_setIfInBounds, if_neg (by omega)]
          · exact past.counted.trans (Nat.add_assoc _ _ _)
          · refine past.moved.trans ?_
            simp only [FrameScan.pushed]
            rw [moved, List.length_append, Nat.add_assoc]
        · exact ⟨Nat.add_assoc st.seen 1 (valuesAll items) ▸ affords'.counted, by
            have shallow' := affords'.shallow
            omega, affords'.fits⟩
  · have full : { st.pastMarker owed with pos := pos }.container
        (maxDepth - 2 * (st.depth - 1)) items.length = .tooLarge .values :=
      container_full { st.pastMarker owed with pos := pos } (Nat.not_le.1 room)
    refine .rejected .values (scanLoop_leave ready.deep (step.trans full)) ?_
    simp only [Exceeds]
    omega

/-- A value of any form, when everything shorter scans as it should. -/
theorem scan_form {size : Nat} (single : ScansUpTo buf size) (form : Form value bytes)
    (bound : bytes.length ≤ size + 1) (ready : Ready buf st (owed + 1))
    (compat : Compatible bytes (buf.drop st.pos)) :
    Scanned buf st owed bytes value.values (depthNeed value) value.payload := by
  cases form with
  | fixed marker field shape need one small =>
      rw [one, ← need]
      exact scan_fixed ready compat shape small
  | payload marker extra len field shape need one declared length =>
      rw [one, ← need, ← declared]
      exact scan_payload ready compat shape length
  | container marker items body shape parts need total small =>
      rw [need, total, small]
      have two : charge marker = 2 := container_charge (by rw [shape]; rfl)
      have least : 2 ≤ 2 + depthNeedAll items := Nat.le_add_right _ _
      rcases scan_marker ready compat with ⟨claimed, inside, rest, whole⟩ | ⟨walk, stop, short⟩ |
        ⟨stop, room⟩ | ⟨stop, poor⟩
      · have step := turn_claimed claimed
        rw [shape] at step
        have arrived : [marker] <+: buf.drop st.pos := by
          rw [List.drop_eq_getElem_cons inside]
          refine List.cons_prefix_cons.2 ⟨?_, List.nil_prefix⟩
          rcases List.getElem?_eq_some_iff.1 claimed.arrived with ⟨_, value⟩
          exact value.symm
        refine scan_container [marker] (st.pos + 1) ready claimed two step
          arrived rfl (fun st' ready' counted moved => ?_)
        refine scan_items single parts (Nat.le_of_succ_le_succ bound) ready' counted ?_
        rw [moved]
        exact rest
      · exact .starved walk stop short
      · exact .rejected .values stop (Nat.lt_of_lt_of_le room (by omega))
      · exact .rejected .depth stop (Nat.lt_of_lt_of_le (two ▸ poor) least)
  | sized marker each len items body shape declared parts need total small =>
      rw [need, total, small]
      have two : charge marker = 2 := container_charge (by rw [shape]; rfl)
      have least : 2 ≤ 2 + depthNeedAll items := Nat.le_add_right _ _
      rcases scan_marker ready compat with ⟨claimed, inside, rest, whole⟩ | ⟨walk, stop, short⟩ |
        ⟨stop, room⟩ | ⟨stop, poor⟩
      · have step := turn_claimed claimed
        rw [shape] at step
        rcases readBe_compatible inside (compatible_front rest) with
          ⟨len_arrived, read⟩ | ⟨missing, read⟩
        · simp only [FrameScan.body] at step
          rw [show (st.pastMarker owed).pos = st.pos + 1 from rfl, read] at step
          simp only [declared] at step
          have marked : st.pos < buf.length := inside
          have header : marker :: len <+: buf.drop st.pos := by
            rw [List.drop_eq_getElem_cons marked]
            refine List.cons_prefix_cons.2 ⟨?_, len_arrived⟩
            rcases List.getElem?_eq_some_iff.1 claimed.arrived with ⟨_, value⟩
            exact value.symm
          refine scan_container (marker :: len) (st.pos + 1 + len.length) ready
            claimed two step header (by rw [List.length_cons]; omega)
            (fun st' ready' counted moved => ?_)
          have back := compatible_back rest
          rw [List.drop_drop, ← moved] at back
          refine scan_items single parts ?_ ready' counted back
          rw [List.length_cons, List.length_append] at bound
          omega
        · simp only [FrameScan.body] at step
          rw [show (st.pastMarker owed).pos = st.pos + 1 from rfl, read] at step
          refine .starved _ (scanLoop_leave ready.deep step) (fun arrived => ?_)
          exact missing (prefix_append_iff.1 (whole.1 arrived)).1
      · exact .starved walk stop short
      · exact .rejected .values stop (Nat.lt_of_lt_of_le room (by omega))
      · exact .rejected .depth stop (Nat.lt_of_lt_of_le (two ▸ poor) least)

/-- **Big-step lemma.**  The walk against any value whose encoding the buffer may hold. -/
theorem scan_value (buf : List UInt8) (size : Nat) : ScansUpTo buf size := by
  induction size with
  | zero =>
      intro value bytes st owed enc bound
      exact absurd enc.length_pos (Nat.not_lt.2 bound)
  | succ size ih =>
      intro value bytes st owed enc bound ready compat
      exact scan_form ih (Encodes.form enc) bound ready compat

/-! ### What `scan_frame` says -/

/-- **`scan_frame` against a candidate value.**  Whatever value the buffer may hold the encoding
of, a fresh scan completes at exactly its extent, within every budget; or it waits, and the
encoding has not arrived; or it rejects, and the value breaks the named budget. -/
theorem scanFrame_compatible (enc : Encodes value bytes) (compat : Compatible bytes buf) :
    (scanFrame buf none = .complete bytes.length ∧ bytes <+: buf ∧ Within value) ∨
    (∃ walk, scanFrame buf none = .incomplete walk ∧ ¬ bytes <+: buf) ∨
    ∃ why, scanFrame buf none = .reject (.tooLarge why) ∧ Breaks why value := by
  have stored := FrameScan.new_stored
  have owes : FrameScan.new.stack[FrameScan.new.depth - 1]? = some (0 + 1) := by
    rw [Vector.getElem?_eq_getElem (by decide)]
    simp [FrameScan.new]
  have ready : Ready buf .new (0 + 1) := ⟨stored.toWalking, stored.deep, owes, Nat.zero_le _⟩
  cases scan_value buf bytes.length enc (Nat.le_refl _) ready compat with
  | past st' same past arrived affords =>
      refine Or.inl ⟨?_, arrived, affords⟩
      have one : st'.depth = 1 := past.depth
      have popped : turn buf st' = .continue { st' with depth := st'.depth - 1 } := by
        apply turn_pop
        rw [one]
        exact past.owes
      have done : scanLoop buf { st' with depth := st'.depth - 1 } = .complete st'.pos :=
        scanLoop_done (by simp only [one])
      have moved : st'.pos = bytes.length := past.moved.trans (Nat.zero_add _)
      refine same.trans ((scanLoop_continue (by omega) popped).trans ?_)
      rw [done, moved]
  | starved walk stop short => exact Or.inr (Or.inl ⟨walk, stop, short⟩)
  | rejected why stop exceeds => exact Or.inr (Or.inr ⟨why, stop, exceeds⟩)

/-- A completed scan is the extent of a value within the budgets, and of no other value. -/
theorem scanFrame_complete {length : Nat} (done : scanFrame buf none = .complete length) :
    (∃ value, Encodes value (buf.take length) ∧ Within value) ∧
      ∀ value bytes, Encodes value bytes → bytes <+: buf → bytes.length = length := by
  have extent : ∀ value bytes, Encodes value bytes → Compatible bytes buf →
      bytes.length = length ∧ bytes <+: buf ∧ Within value := by
    intro value bytes enc compat
    rcases scanFrame_compatible enc compat with ⟨here, arrived, affords⟩ | ⟨_, here, -⟩ |
      ⟨_, here, -⟩
    · rw [done] at here
      cases here
      exact ⟨rfl, arrived, affords⟩
    · cases done.symm.trans here
    · cases done.symm.trans here
  constructor
  · rcases exists_compatible buf with ⟨value, bytes, enc, compat⟩
    rcases extent value bytes enc compat with ⟨rfl, arrived, affords⟩
    rw [← List.prefix_iff_eq_take.1 arrived]
    exact ⟨value, enc, affords⟩
  · intro value bytes enc arrived
    exact (extent value bytes enc (Or.inl arrived)).1

/-- A scan that waits has no complete encoding in front of it. -/
theorem scanFrame_incomplete {walk : FrameScan} (waits : scanFrame buf none = .incomplete walk)
    (enc : Encodes value bytes) : ¬ bytes <+: buf := by
  intro arrived
  rcases scanFrame_compatible enc (Or.inl arrived) with ⟨here, -, -⟩ | ⟨-, -, missing⟩ |
    ⟨why, here, -⟩
  · cases waits.symm.trans here
  · exact missing arrived
  · cases waits.symm.trans here

/-- A rejection names a budget that every value the bytes can still become breaks, and there is
such a value. -/
theorem scanFrame_reject {stop : ScanStop} (rejected : scanFrame buf none = .reject stop) :
    ∃ why, stop = .tooLarge why ∧
      (∃ value bytes, Encodes value bytes ∧ Compatible bytes buf) ∧
      ∀ value bytes, Encodes value bytes → Compatible bytes buf → Breaks why value := by
  have broken : ∀ value bytes, Encodes value bytes → Compatible bytes buf →
      ∃ why, stop = .tooLarge why ∧ Breaks why value := by
    intro value bytes enc compat
    rcases scanFrame_compatible enc compat with ⟨here, -, -⟩ | ⟨_, here, -⟩ | ⟨why, here, breaks⟩
    · cases rejected.symm.trans here
    · cases rejected.symm.trans here
    · rw [rejected] at here
      cases here
      exact ⟨why, rfl, breaks⟩
  rcases exists_compatible buf with ⟨value, bytes, enc, compat⟩
  rcases broken value bytes enc compat with ⟨why, rfl, -⟩
  refine ⟨why, rfl, ⟨value, bytes, enc, compat⟩, ?_⟩
  intro value bytes enc compat
  rcases broken value bytes enc compat with ⟨why', same, breaks⟩
  cases same
  exact breaks

/-- **Exact scanning of a whole stream.**  However the bytes are cut into reads, the frames and
the verdict are those of the whole stream scanned with fresh state per frame; every frame
is the encoding of one value within the budgets; the frames and a rest are the whole stream; and
the reader ends waiting, with no complete encoding at the front of the rest, or stopped by a
budget that every value the rest can still become breaks. -/
theorem scan_frame_exact (chunks : List (List UInt8)) :
    Resumable.readAll scanFrame chunks = Resumable.drain scanFrame chunks.flatten none ∧
    (∀ frame ∈ (Resumable.readAll scanFrame chunks).1,
      (∃ value, Encodes value frame ∧ Within value) ∧
        ∀ value bytes, Encodes value bytes → bytes <+: frame → bytes.length = frame.length) ∧
    ∃ rest, (Resumable.readAll scanFrame chunks).1.flatten ++ rest = chunks.flatten ∧
      ((∃ walk, (Resumable.readAll scanFrame chunks).2 = .waiting rest walk ∧
        ∀ value bytes, Encodes value bytes → ¬ bytes <+: rest) ∨
      ∃ why, (Resumable.readAll scanFrame chunks).2 = .stopped (.tooLarge why) ∧
        (∃ value bytes, Encodes value bytes ∧ Compatible bytes rest) ∧
        ∀ value bytes, Encodes value bytes → Compatible bytes rest → Breaks why value) := by
  have whole := Resumable.readAll_eq_drain scanFrame_lawful chunks
  refine ⟨whole, ?_, ?_⟩
  · intro frame member
    rw [whole] at member
    rcases Resumable.frames_complete scanFrame_lawful _ _ member with ⟨later, done⟩
    rcases scanFrame_complete done with ⟨encodes, only⟩
    rw [List.take_left] at encodes
    refine ⟨encodes, ?_⟩
    intro value bytes enc arrived
    exact only value bytes enc (arrived.trans (List.prefix_append frame later))
  · rw [whole]
    rcases Resumable.drain_rest scanFrame_lawful chunks.flatten with
      ⟨rest, split, ⟨walk, waiting, waits⟩ | ⟨stop, stopped, rejected⟩⟩
    · exact ⟨rest, split, Or.inl ⟨some walk, waiting, fun _ _ => scanFrame_incomplete waits⟩⟩
    · rcases scanFrame_reject rejected with ⟨why, rfl, some_value, breaks⟩
      exact ⟨rest, split, Or.inr ⟨why, stopped, some_value, breaks⟩⟩

end Bemtvi.Rpc
