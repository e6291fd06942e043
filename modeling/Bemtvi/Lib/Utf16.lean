/-
Module: Bemtvi.Lib.Utf16
Purpose: Text as UTF-16 code units and as their bytes in either order: the encoder, the strict
  decoder, and that the decoder accepts exactly what the encoder gives.
Trusted boundary: human-reviewed spec
Main exports: encodeChar, encode, decode, decode_eq_some, unitBytes, units, units_eq_some
-/
import Mathlib

namespace Bemtvi.Utf16

/-- The code units of a character: one, or a surrogate pair. -/
def encodeChar (c : Char) : List UInt16 :=
  if c.toNat < 0x10000 then [UInt16.ofNat c.toNat]
  else
    [UInt16.ofNat (0xD800 + (c.toNat - 0x10000) / 0x400),
      UInt16.ofNat (0xDC00 + (c.toNat - 0x10000) % 0x400)]

def encode (text : List Char) : List UInt16 := text.flatMap encodeChar

/-- The unit is a character by itself. -/
def Single (unit : UInt16) : Prop := unit.toNat < 0xD800 ∨ 0xE000 ≤ unit.toNat

/-- The units are a surrogate pair. -/
def Pair (high low : UInt16) : Prop :=
  0xD800 ≤ high.toNat ∧ high.toNat < 0xDC00 ∧ 0xDC00 ≤ low.toNat ∧ low.toNat < 0xE000

instance (unit : UInt16) : Decidable (Single unit) := inferInstanceAs (Decidable (_ ∨ _))

instance (high low : UInt16) : Decidable (Pair high low) := inferInstanceAs (Decidable (_ ∧ _))

/-- The character of a surrogate pair. -/
def pairChar (high low : UInt16) : Char :=
  Char.ofNat (0x10000 + (high.toNat - 0xD800) * 0x400 + (low.toNat - 0xDC00))

/-- The text of code units; `none` where a surrogate stands alone. -/
def decode : List UInt16 → Option (List Char)
  | [] => some []
  | [unit] => if Single unit then some [Char.ofNat unit.toNat] else none
  | unit :: next :: rest =>
      if Single unit then (decode (next :: rest)).map (Char.ofNat unit.toNat :: ·)
      else if Pair unit next then (decode rest).map (pairChar unit next :: ·)
      else none

theorem char_valid (c : Char) : c.toNat < 0xD800 ∨ 0xDFFF < c.toNat ∧ c.toNat < 0x110000 := c.valid

theorem toNat_ofNat {n : Nat} (valid : n < 0xD800 ∨ 0xDFFF < n ∧ n < 0x110000) :
    (Char.ofNat n).toNat = n := by
  have isValid : n.isValidChar := valid
  simp [Char.ofNat, isValid, Char.ofNatAux, Char.toNat]

theorem decode_single {unit : UInt16} (single : Single unit) (rest : List UInt16) :
    decode (unit :: rest) = (decode rest).map (Char.ofNat unit.toNat :: ·) := by
  cases rest with
  | nil => simp [decode, single]
  | cons next rest => simp [decode, single]

theorem decode_encodeChar (c : Char) (rest : List UInt16) :
    decode (encodeChar c ++ rest) = (decode rest).map (c :: ·) := by
  have valid := char_valid c
  rw [encodeChar]
  split
  · rename_i small
    have unit : (UInt16.ofNat c.toNat).toNat = c.toNat := UInt16.toNat_ofNat_of_lt' small
    have single : Single (UInt16.ofNat c.toNat) := by
      rw [Single, unit]
      omega
    rw [List.singleton_append, decode_single single, unit, Char.ofNat_toNat]
  · rename_i large
    have high : (UInt16.ofNat (0xD800 + (c.toNat - 0x10000) / 0x400)).toNat =
        0xD800 + (c.toNat - 0x10000) / 0x400 :=
      UInt16.toNat_ofNat_of_lt' (by simp only [UInt16.size]; omega)
    have low : (UInt16.ofNat (0xDC00 + (c.toNat - 0x10000) % 0x400)).toNat =
        0xDC00 + (c.toNat - 0x10000) % 0x400 :=
      UInt16.toNat_ofNat_of_lt' (by simp only [UInt16.size]; omega)
    have not_single : ¬ Single (UInt16.ofNat (0xD800 + (c.toNat - 0x10000) / 0x400)) := by
      rw [Single, high]
      omega
    have pair : Pair (UInt16.ofNat (0xD800 + (c.toNat - 0x10000) / 0x400))
        (UInt16.ofNat (0xDC00 + (c.toNat - 0x10000) % 0x400)) := by
      rw [Pair, high, low]
      omega
    have whole : pairChar (UInt16.ofNat (0xD800 + (c.toNat - 0x10000) / 0x400))
        (UInt16.ofNat (0xDC00 + (c.toNat - 0x10000) % 0x400)) = c := by
      rw [pairChar, high, low]
      refine Eq.trans (congrArg Char.ofNat ?_) (Char.ofNat_toNat c)
      omega
    rw [List.cons_append, List.singleton_append, decode, if_neg not_single, if_pos pair, whole]

theorem decode_encode (text : List Char) : decode (encode text) = some text := by
  induction text with
  | nil => rfl
  | cons c text ih =>
      rw [encode, List.flatMap_cons, decode_encodeChar]
      rw [encode] at ih
      rw [ih]
      rfl

theorem encodeChar_single {unit : UInt16} (single : Single unit) :
    encodeChar (Char.ofNat unit.toNat) = [unit] := by
  have small : unit.toNat < 0x10000 := unit.toNat_lt
  have char : (Char.ofNat unit.toNat).toNat = unit.toNat := by
    apply toNat_ofNat
    rw [Single] at single
    omega
  rw [encodeChar, char, if_pos small, UInt16.ofNat_toNat]

theorem encodeChar_pair {high low : UInt16} (pair : Pair high low) :
    encodeChar (pairChar high low) = [high, low] := by
  obtain ⟨h, h', l, l'⟩ := pair
  have char : (pairChar high low).toNat =
      0x10000 + (high.toNat - 0xD800) * 0x400 + (low.toNat - 0xDC00) := by
    apply toNat_ofNat
    omega
  have first : 0xD800 + (0x10000 + (high.toNat - 0xD800) * 0x400 + (low.toNat - 0xDC00) -
      0x10000) / 0x400 = high.toNat := by omega
  have second : 0xDC00 + (0x10000 + (high.toNat - 0xD800) * 0x400 + (low.toNat - 0xDC00) -
      0x10000) % 0x400 = low.toNat := by omega
  rw [encodeChar, char, if_neg (by omega), first, second, UInt16.ofNat_toNat,
    UInt16.ofNat_toNat]

/-- **Strictness.**  The decoder gives a text exactly for the units the encoder gives for it. -/
theorem decode_eq_some {units : List UInt16} {text : List Char} :
    decode units = some text ↔ units = encode text := by
  constructor
  · intro decoded
    induction units using decode.induct generalizing text with
    | case1 =>
        cases decoded
        rfl
    | case2 unit single =>
        rw [decode, if_pos single] at decoded
        cases decoded
        simp [encode, encodeChar_single single]
    | case3 unit alone =>
        rw [decode, if_neg alone] at decoded
        cases decoded
    | case4 unit next rest single ih =>
        rw [decode, if_pos single, Option.map_eq_some_iff] at decoded
        obtain ⟨text, decoded, rfl⟩ := decoded
        rw [ih decoded, encode, encode, List.flatMap_cons, encodeChar_single single]
        rfl
    | case5 unit next rest alone pair ih =>
        rw [decode, if_neg alone, if_pos pair, Option.map_eq_some_iff] at decoded
        obtain ⟨text, decoded, rfl⟩ := decoded
        rw [ih decoded, encode, encode, List.flatMap_cons, encodeChar_pair pair]
        rfl
    | case6 unit next rest alone unpaired =>
        rw [decode, if_neg alone, if_neg unpaired] at decoded
        cases decoded
  · rintro rfl
    exact decode_encode text

/-! ### Units as bytes -/

/-- `to_le_bytes`, or `to_be_bytes`. -/
def unitBytes (littleEndian : Bool) (unit : UInt16) : List UInt8 :=
  let low := UInt8.ofNat (unit.toNat % 256)
  let high := UInt8.ofNat (unit.toNat / 256)
  if littleEndian then [low, high] else [high, low]

/-- The unit of two bytes. -/
def unitOf (littleEndian : Bool) (first second : UInt8) : UInt16 :=
  if littleEndian then UInt16.ofNat (first.toNat + 256 * second.toNat)
  else UInt16.ofNat (second.toNat + 256 * first.toNat)

/-- The units of bytes; `none` when one is left over. -/
def units (littleEndian : Bool) : List UInt8 → Option (List UInt16)
  | [] => some []
  | [_] => none
  | first :: second :: rest =>
      (units littleEndian rest).map (unitOf littleEndian first second :: ·)

theorem unitBytes_unitOf (littleEndian : Bool) (first second : UInt8) :
    unitBytes littleEndian (unitOf littleEndian first second) = [first, second] := by
  have f := first.toNat_lt
  have s := second.toNat_lt
  cases littleEndian with
  | true =>
      have unit : (UInt16.ofNat (first.toNat + 256 * second.toNat)).toNat =
          first.toNat + 256 * second.toNat :=
        UInt16.toNat_ofNat_of_lt' (by simp only [UInt16.size]; omega)
      have low : (first.toNat + 256 * second.toNat) % 256 = first.toNat := by omega
      have high : (first.toNat + 256 * second.toNat) / 256 = second.toNat := by omega
      simp only [unitBytes, unitOf, if_true, unit, low, high, UInt8.ofNat_toNat]
  | false =>
      have unit : (UInt16.ofNat (second.toNat + 256 * first.toNat)).toNat =
          second.toNat + 256 * first.toNat :=
        UInt16.toNat_ofNat_of_lt' (by simp only [UInt16.size]; omega)
      have low : (second.toNat + 256 * first.toNat) % 256 = second.toNat := by omega
      have high : (second.toNat + 256 * first.toNat) / 256 = first.toNat := by omega
      simp only [unitBytes, unitOf, Bool.false_eq_true, if_false, unit, low, high,
        UInt8.ofNat_toNat]

theorem units_unitBytes (littleEndian : Bool) (unit : UInt16) (rest : List UInt8) :
    units littleEndian (unitBytes littleEndian unit ++ rest) =
      (units littleEndian rest).map (unit :: ·) := by
  have bound := unit.toNat_lt
  have low : (UInt8.ofNat (unit.toNat % 256)).toNat = unit.toNat % 256 :=
    UInt8.toNat_ofNat_of_lt' (by simp only [UInt8.size]; omega)
  have high : (UInt8.ofNat (unit.toNat / 256)).toNat = unit.toNat / 256 :=
    UInt8.toNat_ofNat_of_lt' (by simp only [UInt8.size]; omega)
  have whole : unit.toNat % 256 + 256 * (unit.toNat / 256) = unit.toNat := by omega
  cases littleEndian <;> simp [unitBytes, units, unitOf, low, high, whole]

/-- Bytes are units exactly when they are the bytes of those units. -/
theorem units_eq_some {littleEndian : Bool} {bytes : List UInt8} {found : List UInt16} :
    units littleEndian bytes = some found ↔ bytes = found.flatMap (unitBytes littleEndian) := by
  constructor
  · intro read
    induction bytes using units.induct generalizing found with
    | case1 =>
        cases read
        rfl
    | case2 byte => cases read
    | case3 first second rest ih =>
        rw [units, Option.map_eq_some_iff] at read
        obtain ⟨later, read, rfl⟩ := read
        rw [List.flatMap_cons, unitBytes_unitOf, ← ih read]
        rfl
  · rintro rfl
    induction found with
    | nil => rfl
    | cons unit found ih =>
        rw [List.flatMap_cons, units_unitBytes, ih]
        rfl

end Bemtvi.Utf16
