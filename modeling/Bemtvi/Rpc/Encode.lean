/-
Module: Bemtvi.Rpc.Encode
Purpose: The sender's half of the frame limits: `within_value_budget` counts what the reader
  counts, `encode_checked` refuses every frame the reader would refuse, and one byte more.
Trusted boundary: human-reviewed model of lib.rs:873-945; `write` stands for rmpv's `write_value`
Main exports: withinValueBudget, encodeChecked, notification, withinValueBudget_eq,
  encodeChecked_eq_ok, encode_checked_accepted
-/
import Bemtvi.Rpc.Reader

namespace Bemtvi.Rpc

open Msgpack

mutual

/-- Charge a value's nodes against the budget; `none` as soon as it runs out. -/
def withinValueBudget : Value → Nat → Option Nat
  | .array items, budget + 1 => withinBudgetAll items budget
  | .map entries, budget + 1 => withinBudgetEntries entries budget
  | _, budget + 1 => some budget
  | _, 0 => none

/-- `items.iter().all(..)` over the shared budget. -/
def withinBudgetAll : List Value → Nat → Option Nat
  | [], budget => some budget
  | item :: items, budget =>
      match withinValueBudget item budget with
      | some budget => withinBudgetAll items budget
      | none => none

/-- `entries.iter().all(..)` over the shared budget, key before value. -/
def withinBudgetEntries : List (Value × Value) → Nat → Option Nat
  | [], budget => some budget
  | (key, value) :: entries, budget =>
      match withinValueBudget key budget with
      | some budget =>
          match withinValueBudget value budget with
          | some budget => withinBudgetEntries entries budget
          | none => none
      | none => none

end

/-- `Value::from(&str)`. -/
def text (string : String) : Value := .str string.toUTF8.data.toList

section

variable (write : Value → List UInt8)

/-- Encode one RPC frame, refusing what the peer's reader would reject. -/
def encodeChecked (val : Value) : Except String (List UInt8) :=
  match withinValueBudget val maxValues with
  | none => .error s!"holds more than {maxValues} msgpack values (the per-frame value limit)"
  | some _ =>
      let buf := write val
      if buf.length > maxFrame then
        .error s!"encodes to {buf.length} bytes, over the {maxFrame}-byte frame limit"
      else .ok buf

/-- Build and encode a notification frame `[2, method, params]`. -/
def notification (method : String) (params : List Value) : Except String (List UInt8) :=
  encodeChecked write (.array [.int 2, text method, .array params])

end

/-! ### The sender counts what the reader counts -/

mutual

/-- A value is charged exactly its node count. -/
theorem withinValueBudget_eq : ∀ (val : Value) (budget : Nat),
    withinValueBudget val budget =
      if val.values ≤ budget then some (budget - val.values) else none
  | val, 0 => by
      rw [if_neg (Nat.not_le.2 val.values_pos)]
      cases val <;> rfl
  | .array items, budget + 1 => by
      rw [withinValueBudget, withinBudgetAll_eq items budget, Value.values,
        Nat.add_comm 1, Nat.add_sub_add_right]
      simp only [Nat.add_le_add_iff_right]
  | .map entries, budget + 1 => by
      rw [withinValueBudget, withinBudgetEntries_eq entries budget, Value.values,
        Nat.add_comm 1, Nat.add_sub_add_right]
      simp only [Nat.add_le_add_iff_right]
  | .nil, _ + 1 | .bool _, _ + 1 | .int _, _ + 1 | .f32 _, _ + 1 | .f64 _, _ + 1
  | .str _, _ + 1 | .bin _, _ + 1 | .ext _ _, _ + 1 => by
      simp [withinValueBudget, Value.values]

/-- Charging a list is charging the sum. -/
theorem withinBudgetAll_eq : ∀ (items : List Value) (budget : Nat),
    withinBudgetAll items budget =
      if valuesAll items ≤ budget then some (budget - valuesAll items) else none
  | [], budget => by simp [withinBudgetAll, valuesAll]
  | item :: items, budget => by
      rw [withinBudgetAll, withinValueBudget_eq item budget, valuesAll]
      by_cases first : item.values ≤ budget
      · rw [if_pos first]
        simp only
        rw [withinBudgetAll_eq items, Nat.sub_sub]
        simp only [Nat.le_sub_iff_add_le' first]
      · rw [if_neg first, if_neg (by omega)]

/-- Charging a map's entries is charging the sum. -/
theorem withinBudgetEntries_eq : ∀ (entries : List (Value × Value)) (budget : Nat),
    withinBudgetEntries entries budget =
      if valuesEntries entries ≤ budget then some (budget - valuesEntries entries) else none
  | [], budget => by simp [withinBudgetEntries, valuesEntries]
  | (key, value) :: entries, budget => by
      rw [withinBudgetEntries, withinValueBudget_eq key budget, valuesEntries]
      by_cases first : key.values ≤ budget
      · rw [if_pos first]
        simp only
        rw [withinValueBudget_eq value]
        by_cases second : value.values ≤ budget - key.values
        · rw [if_pos second]
          simp only
          rw [withinBudgetEntries_eq entries, Nat.sub_sub, Nat.sub_sub]
          have same : valuesEntries entries ≤ budget - (key.values + value.values) ↔
              key.values + value.values + valuesEntries entries ≤ budget := by omega
          simp only [same]
        · rw [if_neg second, if_neg (by omega)]
      · rw [if_neg first, if_neg (by omega)]

end

variable {buf bytes : List UInt8} {write : Value → List UInt8}

/-- **What the sender lets through.** -/
theorem encodeChecked_eq_ok {val : Value} : encodeChecked write val = .ok buf ↔
      val.values ≤ maxValues ∧ (write val).length ≤ maxFrame ∧ buf = write val := by
  unfold encodeChecked
  rw [withinValueBudget_eq]
  by_cases counted : val.values ≤ maxValues
  · simp only [if_pos counted]
    by_cases fits : (write val).length > maxFrame
    · rw [if_pos fits]
      constructor
      · intro same
        cases same
      · rintro ⟨-, short, -⟩
        exact absurd short (Nat.not_le.2 fits)
    · rw [if_neg fits]
      constructor
      · intro same
        cases same
        exact ⟨counted, Nat.not_lt.1 fits, rfl⟩
      · rintro ⟨-, -, rfl⟩
        rfl
  · simp only [if_neg counted]
    constructor
    · intro same
      cases same
    · rintro ⟨few, -, -⟩
      exact absurd few counted

/-! ### A frame's payloads fit when the frame does -/

/-- No payload is longer than the frame that carries it. -/
theorem payload_le_of_length {size : Nat} {value : Value} (enc : Encodes value bytes)
    (bound : bytes.length ≤ size) (fits : size ≤ maxFrame + 1) : value.payload ≤ maxFrame := by
  induction size generalizing value bytes with
  | zero => exact absurd enc.length_pos (Nat.not_lt.2 bound)
  | succ size ih =>
      have items_fit : ∀ {items : List Value} {body : List UInt8}, EncodesAll items body →
          body.length ≤ size → payloadAll items ≤ maxFrame := by
        intro items body parts short
        induction items generalizing body with
        | nil => exact Nat.zero_le _
        | cons item items each =>
            cases parts with
            | cons head tail =>
                rw [List.length_append] at short
                exact Nat.max_le.2 ⟨ih head (by omega) (by omega), each tail (by omega)⟩
      cases Encodes.form enc with
      | fixed marker field shape need single small => exact small
      | payload marker extra len field shape need single declared length =>
          rw [List.length_cons, List.length_append, length] at bound
          omega
      | container marker items body shape parts need total small =>
          rw [small]
          exact items_fit parts (Nat.le_of_succ_le_succ bound)
      | sized marker each len items body shape declared parts need total small =>
          rw [small]
          apply items_fit parts
          rw [List.length_cons, List.length_append] at bound
          omega

/-! ### Sender against reader -/

/-- What is known of rmpv on one value: `write_value` emits an encoding of it, unless the value has
a length past the format's 32-bit fields and so costs at least that many bytes; and the decoder
reads its encoding back. -/
structure Rmpv (write : Value → List UInt8) (decode : List UInt8 → Option Value) (val : Value) :
    Prop where
  writes : Encodes val (write val) ∨ 2 ^ 32 ≤ (write val).length
  reads : Encodes val (write val) → depthNeed val ≤ maxDepth → decode (write val) = some val

/-- A value the sender lets through is a frame the reader hands out. -/
theorem Rmpv.deliverable {decode : List UInt8 → Option Value} {val : Value}
    (rmpv : Rmpv write decode val) (shallow : depthNeed val ≤ maxDepth)
    (sent : encodeChecked write val = .ok buf) :
    Deliverable decode buf ∧ buf.length ≤ maxFrame := by
  rcases encodeChecked_eq_ok.1 sent with ⟨counted, fits, rfl⟩
  rcases rmpv.writes with enc | long
  · refine ⟨⟨⟨val, enc, ?_, shallow, ?_⟩, ?_⟩, fits⟩
    · rw [Nat.zero_add]
      exact counted
    · exact payload_le_of_length enc (Nat.le_refl _) (Nat.le_succ_of_le fits)
    · rw [rmpv.reads enc shallow]
      rfl
  · exact absurd (long.trans fits) (by decide)

/-- **Sender and reader.**  Short of the one length the sender refuses and the reader would take,
`encode_checked` lets through exactly the frames the reader hands out in every chunking; what it
lets through is always handed out; and a stream of such frames never stops the reader. -/
theorem encode_checked_accepted (write : Value → List UInt8) (decode : List UInt8 → Option Value) :
    (∀ val, Rmpv write decode val → depthNeed val ≤ maxDepth →
      ((encodeChecked write val = .ok (write val) ↔
          (write val).length ≠ maxFrame + 1 ∧ Accepted decode (write val)) ∧
        ∀ buf, encodeChecked write val = .ok buf → Accepted decode buf)) ∧
    ∀ (vals : List Value) (frames chunks : List (List UInt8)),
      (∀ val ∈ vals, Rmpv write decode val ∧ depthNeed val ≤ maxDepth) →
      vals.map (encodeChecked write) = frames.map .ok → chunks.flatten <+: frames.flatten →
      (∃ rest st, (readerTask decode chunks).2 = .waiting rest st) ∧
        (chunks.flatten = frames.flatten → (readerTask decode chunks).1 = frames) := by
  constructor
  · intro val rmpv shallow
    have sent_accepted : ∀ buf, encodeChecked write val = .ok buf → Accepted decode buf := by
      intro buf sent
      rcases rmpv.deliverable shallow sent with ⟨deliverable, fits⟩
      exact accepted_of_deliverable deliverable (Nat.le_succ_of_le fits)
    refine ⟨⟨?_, ?_⟩, sent_accepted⟩
    · intro sent
      have fits := (rmpv.deliverable shallow sent).2
      exact ⟨by omega, sent_accepted _ sent⟩
    · rintro ⟨other, accepted⟩
      have short := accepted.length_le
      rcases rmpv.writes with enc | long
      · apply encodeChecked_eq_ok.2
        have counted := (accepted.within enc).counted
        rw [Nat.zero_add] at counted
        exact ⟨counted, by omega, rfl⟩
      · exact absurd (long.trans short) (by decide)
  · intro vals frames chunks known sent arrived
    refine readerTask_stream ?_ arrived
    intro frame member
    have listed : Except.ok frame ∈ vals.map (encodeChecked write) := by
      rw [sent]
      exact List.mem_map_of_mem member
    rcases List.mem_map.1 listed with ⟨val, here, sent_here⟩
    rcases known val here with ⟨rmpv, shallow⟩
    rcases rmpv.deliverable shallow sent_here with ⟨deliverable, fits⟩
    exact ⟨deliverable, Nat.le_succ_of_le fits⟩

/-! ### At the limit

`write_value` on a bin too long for `bin16`, and the decoder undoing it. -/

/-- The four bytes of a `bin32` length field. -/
def lengthField (n : Nat) : List UInt8 :=
  [UInt8.ofNat (n / 2 ^ 24), UInt8.ofNat (n / 2 ^ 16), UInt8.ofNat (n / 2 ^ 8), UInt8.ofNat n]

theorem beNat_lengthField {n : Nat} (short : n < 2 ^ 32) : beNat (lengthField n) = n := by
  simp only [beNat, lengthField, List.foldl_cons, List.foldl_nil, UInt8.toNat_ofNat']
  omega

/-- `write_value` on long bins. -/
def writeBin32 : Value → List UInt8
  | .bin bytes => 0xc6 :: (lengthField bytes.length ++ bytes)
  | _ => [0xc0]

/-- The decoder on what `writeBin32` writes. -/
def readBin32 : List UInt8 → Option Value
  | 0xc6 :: _ :: _ :: _ :: _ :: bytes => some (.bin bytes)
  | _ => some .nil

theorem writeBin32_length (bytes : List UInt8) :
    (writeBin32 (.bin bytes)).length = 5 + bytes.length := by
  simp only [writeBin32, lengthField, List.length_cons, List.length_append, List.length_nil]
  omega

theorem rmpv_bin32 (short : bytes.length < 2 ^ 32) : Rmpv writeBin32 readBin32 (.bin bytes) where
  writes := Or.inl (.bin 2 (lengthField bytes.length) bytes rfl (beNat_lengthField short))
  reads := fun _ _ => rfl

/-- A frame of 70005 bytes goes out, and comes in however it is cut, and in two chunks. -/
theorem encode_checked_accepted_bin :
    Accepted readBin32 (writeBin32 (.bin (List.replicate 70000 0))) ∧
      (readerTask readBin32 [(writeBin32 (.bin (List.replicate 70000 0))).take 3,
        (writeBin32 (.bin (List.replicate 70000 0))).drop 3]).1 =
          [writeBin32 (.bin (List.replicate 70000 0))] := by
  have size : (List.replicate 70000 (0 : UInt8)).length = 70000 := List.length_replicate
  have rmpv : Rmpv writeBin32 readBin32 (.bin (List.replicate 70000 0)) :=
    rmpv_bin32 (by rw [size]; decide)
  have sent : encodeChecked writeBin32 (.bin (List.replicate 70000 0)) =
      .ok (writeBin32 (.bin (List.replicate 70000 0))) := by
    apply encodeChecked_eq_ok.2
    refine ⟨by simp only [Value.values]; decide, ?_, rfl⟩
    rw [writeBin32_length, size]
    decide
  have both := encode_checked_accepted writeBin32 readBin32
  constructor
  · exact (both.1 _ rmpv (by simp only [depthNeed]; decide)).2 _ sent
  · generalize writeBin32 (.bin (List.replicate 70000 0)) = frame at sent ⊢
    have whole : [frame.take 3, frame.drop 3].flatten = [frame].flatten := by
      rw [List.flatten_cons, List.flatten_singleton, List.flatten_singleton, List.take_append_drop]
    refine (both.2 [.bin (List.replicate 70000 0)] [frame] [frame.take 3, frame.drop 3] ?_ ?_
      (whole ▸ List.prefix_refl _)).2 whole
    · intro val member
      rw [List.mem_singleton.1 member]
      exact ⟨rmpv, by simp only [depthNeed]; decide⟩
    · rw [List.map_singleton, List.map_singleton, sent]

/-- One byte over `MAX_FRAME`, the sender refuses what the reader takes: at most `MAX_FRAME` bytes
of it are ever pending. -/
theorem encode_checked_limit :
    ¬ ∀ (write : Value → List UInt8) (decode : List UInt8 → Option Value) (val : Value),
      Rmpv write decode val → depthNeed val ≤ maxDepth →
        (encodeChecked write val = .ok (write val) ↔ Accepted decode (write val)) := by
  intro claimed
  have size : (List.replicate 67108860 (0 : UInt8)).length = 67108860 := List.length_replicate
  have short : (List.replicate 67108860 (0 : UInt8)).length < 2 ^ 32 := by
    rw [size]
    decide
  have length : (writeBin32 (.bin (List.replicate 67108860 0))).length = maxFrame + 1 := by
    rw [writeBin32_length, size]
    decide
  have enc : Encodes (.bin (List.replicate 67108860 0))
      (writeBin32 (.bin (List.replicate 67108860 0))) :=
    .bin 2 (lengthField (List.replicate 67108860 (0 : UInt8)).length) _ rfl
      (beNat_lengthField short)
  have accepted : Accepted readBin32 (writeBin32 (.bin (List.replicate 67108860 0))) := by
    apply accepted_of_deliverable ⟨⟨_, enc, ?_, ?_, ?_⟩, rfl⟩ (Nat.le_of_eq length)
    · simp only [Value.values]
      decide
    · simp only [depthNeed]
      decide
    · exact payload_le_of_length enc (Nat.le_of_eq length) (Nat.le_refl _)
  have sent := (claimed writeBin32 readBin32 _ (rmpv_bin32 short)
    (by simp only [depthNeed]; decide)).2 accepted
  have fits := (encodeChecked_eq_ok.1 sent).2.1
  omega

end Bemtvi.Rpc
