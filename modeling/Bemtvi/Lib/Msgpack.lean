/-
Module: Bemtvi.Lib.Msgpack
Purpose: The msgpack value tree and its wire grammar.  `Encodes` lists the formats of the
  specification (any format that can carry a value, not only the shortest one) plus the
  reserved marker `0xc1`, which decoders in the field read as nil.  The one general fact a
  scanner needs is `exists_compatible`: every byte string starts, or is started by, the
  encoding of some value, so "what the bytes can still become" is never an empty question.
Trusted boundary: human-reviewed spec
Main exports: Value, Encodes, EncodesAll, Compatible, exists_compatible
-/
import Mathlib

namespace Bemtvi.Msgpack

/-- A msgpack value.  Strings carry raw bytes: the wire does not promise UTF-8. -/
inductive Value where
  | nil
  | bool (value : Bool)
  | int (value : Int)
  | f32 (bits : UInt32)
  | f64 (bits : UInt64)
  | str (bytes : List UInt8)
  | bin (bytes : List UInt8)
  | array (items : List Value)
  | map (entries : List (Value × Value))
  | ext (tag : UInt8) (data : List UInt8)
deriving Repr, Inhabited

/-- The values a map holds, key before value, in wire order. -/
def flattenEntries : List (Value × Value) → List Value
  | [] => []
  | (key, value) :: entries => key :: value :: flattenEntries entries

@[simp] theorem flattenEntries_length (entries : List (Value × Value)) :
    (flattenEntries entries).length = 2 * entries.length := by
  induction entries with
  | nil => rfl
  | cons entry entries ih =>
      simp only [flattenEntries, List.length_cons, ih]
      omega

/-- Every list of even length is the flattening of some entries. -/
theorem exists_flattenEntries (count : Nat) (values : List Value)
    (even : values.length = 2 * count) :
    ∃ entries, flattenEntries entries = values ∧ entries.length = count := by
  induction count generalizing values with
  | zero =>
      rw [Nat.mul_zero, List.length_eq_zero_iff] at even
      exact ⟨[], even.symm, rfl⟩
  | succ count ih =>
      match values, even with
      | key :: value :: rest, even =>
          have rest_even : rest.length = 2 * count := by
            simp only [List.length_cons] at even
            omega
          obtain ⟨entries, flat, size⟩ := ih rest rest_even
          exact ⟨(key, value) :: entries, by rw [flattenEntries, flat], by simp [size]⟩

/-! ### Measures of a value -/

mutual

/-- How many values the tree holds, containers included. -/
def Value.values : Value → Nat
  | .array items => 1 + valuesAll items
  | .map entries => 1 + valuesEntries entries
  | _ => 1

/-- The values of a list of trees together. -/
def valuesAll : List Value → Nat
  | [] => 0
  | item :: items => item.values + valuesAll items

/-- The values of a map's entries together. -/
def valuesEntries : List (Value × Value) → Nat
  | [] => 0
  | (key, value) :: entries => key.values + value.values + valuesEntries entries

end

mutual

/-- The longest str, bin or ext payload in the tree, in bytes. -/
def Value.payload : Value → Nat
  | .str bytes => bytes.length
  | .bin bytes => bytes.length
  | .ext _ data => data.length
  | .array items => payloadAll items
  | .map entries => payloadEntries entries
  | _ => 0

/-- The longest payload in a list of trees. -/
def payloadAll : List Value → Nat
  | [] => 0
  | item :: items => max item.payload (payloadAll items)

/-- The longest payload in a map's entries. -/
def payloadEntries : List (Value × Value) → Nat
  | [] => 0
  | (key, value) :: entries => max (max key.payload value.payload) (payloadEntries entries)

end

theorem valuesEntries_eq (entries : List (Value × Value)) :
    valuesEntries entries = valuesAll (flattenEntries entries) := by
  induction entries with
  | nil => rfl
  | cons entry entries ih =>
      rcases entry with ⟨key, value⟩
      simp only [valuesEntries, flattenEntries, valuesAll, ih, Nat.add_assoc]

theorem payloadEntries_eq (entries : List (Value × Value)) :
    payloadEntries entries = payloadAll (flattenEntries entries) := by
  induction entries with
  | nil => rfl
  | cons entry entries ih =>
      rcases entry with ⟨key, value⟩
      simp only [payloadEntries, flattenEntries, payloadAll, ih, Nat.max_assoc]

/-- A tree holds at least its root. -/
theorem Value.values_pos (value : Value) : 0 < value.values := by
  cases value <;> simp only [Value.values] <;> omega

theorem length_le_valuesAll (items : List Value) : items.length ≤ valuesAll items := by
  induction items with
  | nil => exact Nat.le_refl 0
  | cons item items ih =>
      have root := item.values_pos
      simp only [List.length_cons, valuesAll]
      omega

/-- Big-endian reading of a byte string. -/
def beNat (bytes : List UInt8) : Nat :=
  bytes.foldl (fun acc byte => acc * 256 + byte.toNat) 0

/-- Two's complement big-endian reading. -/
def beInt (bytes : List UInt8) : Int :=
  if 2 * beNat bytes < 256 ^ bytes.length then beNat bytes
  else (beNat bytes : Int) - 256 ^ bytes.length

mutual

/-- `Encodes value bytes`: `bytes` is one encoding of `value`. -/
inductive Encodes : Value → List UInt8 → Prop where
  | nil : Encodes .nil [0xc0]
  | reserved : Encodes .nil [0xc1]
  | bool (value : Bool) : Encodes (.bool value) [if value then 0xc3 else 0xc2]
  | posFixint (byte : UInt8) (small : byte.toNat < 0x80) :
      Encodes (.int byte.toNat) [byte]
  | negFixint (byte : UInt8) (large : 0xe0 ≤ byte.toNat) :
      Encodes (.int (byte.toNat - 256)) [byte]
  | uint (width : Fin 4) (bytes : List UInt8) (size : bytes.length = 2 ^ width.val) :
      Encodes (.int (beNat bytes)) (UInt8.ofNat (0xcc + width.val) :: bytes)
  | sint (width : Fin 4) (bytes : List UInt8) (size : bytes.length = 2 ^ width.val) :
      Encodes (.int (beInt bytes)) (UInt8.ofNat (0xd0 + width.val) :: bytes)
  | f32 (bytes : List UInt8) (size : bytes.length = 4) :
      Encodes (.f32 (UInt32.ofNat (beNat bytes))) (0xca :: bytes)
  | f64 (bytes : List UInt8) (size : bytes.length = 8) :
      Encodes (.f64 (UInt64.ofNat (beNat bytes))) (0xcb :: bytes)
  | fixstr (bytes : List UInt8) (small : bytes.length < 32) :
      Encodes (.str bytes) (UInt8.ofNat (0xa0 + bytes.length) :: bytes)
  | str (width : Fin 3) (len bytes : List UInt8) (size : len.length = 2 ^ width.val)
      (declared : beNat len = bytes.length) :
      Encodes (.str bytes) (UInt8.ofNat (0xd9 + width.val) :: (len ++ bytes))
  | bin (width : Fin 3) (len bytes : List UInt8) (size : len.length = 2 ^ width.val)
      (declared : beNat len = bytes.length) :
      Encodes (.bin bytes) (UInt8.ofNat (0xc4 + width.val) :: (len ++ bytes))
  | fixext (width : Fin 5) (tag : UInt8) (data : List UInt8)
      (size : data.length = 2 ^ width.val) :
      Encodes (.ext tag data) (UInt8.ofNat (0xd4 + width.val) :: tag :: data)
  | ext (width : Fin 3) (len : List UInt8) (tag : UInt8) (data : List UInt8)
      (size : len.length = 2 ^ width.val) (declared : beNat len = data.length) :
      Encodes (.ext tag data) (UInt8.ofNat (0xc7 + width.val) :: (len ++ tag :: data))
  | fixarray (items : List Value) (body : List UInt8) (small : items.length < 16)
      (parts : EncodesAll items body) :
      Encodes (.array items) (UInt8.ofNat (0x90 + items.length) :: body)
  | array (width : Fin 2) (len : List UInt8) (items : List Value) (body : List UInt8)
      (size : len.length = 2 * 2 ^ width.val) (declared : beNat len = items.length)
      (parts : EncodesAll items body) :
      Encodes (.array items) (UInt8.ofNat (0xdc + width.val) :: (len ++ body))
  | fixmap (entries : List (Value × Value)) (body : List UInt8)
      (small : entries.length < 16)
      (parts : EncodesAll (flattenEntries entries) body) :
      Encodes (.map entries) (UInt8.ofNat (0x80 + entries.length) :: body)
  | map (width : Fin 2) (len : List UInt8) (entries : List (Value × Value))
      (body : List UInt8) (size : len.length = 2 * 2 ^ width.val)
      (declared : beNat len = entries.length)
      (parts : EncodesAll (flattenEntries entries) body) :
      Encodes (.map entries) (UInt8.ofNat (0xde + width.val) :: (len ++ body))

/-- Encodings laid end to end. -/
inductive EncodesAll : List Value → List UInt8 → Prop where
  | nil : EncodesAll [] []
  | cons {value : Value} {bytes : List UInt8} {values : List Value} {rest : List UInt8}
      (head : Encodes value bytes) (tail : EncodesAll values rest) :
      EncodesAll (value :: values) (bytes ++ rest)

end

variable {bytes buffer : List UInt8}

/-- No encoding is empty: a value costs at least its marker. -/
theorem Encodes.length_pos {value : Value} (enc : Encodes value bytes) : 0 < bytes.length := by
  cases enc <;> simp

/-! ### Compatibility: one byte string starts the other -/

/-- One of the two strings is a prefix of the other. -/
def Compatible (bytes buffer : List UInt8) : Prop :=
  bytes <+: buffer ∨ buffer <+: bytes

theorem compatible_nil (buffer : List UInt8) : Compatible [] buffer :=
  Or.inl List.nil_prefix

theorem Compatible.cons (byte : UInt8) (compat : Compatible bytes buffer) :
    Compatible (byte :: bytes) (byte :: buffer) := by
  rcases compat with short | long
  · exact Or.inl (List.cons_prefix_cons.2 ⟨rfl, short⟩)
  · exact Or.inr (List.cons_prefix_cons.2 ⟨rfl, long⟩)

/-- Compatibility of a concatenation, part by part. -/
theorem Compatible.append {front back : List UInt8} (one : Compatible front buffer)
    (two : Compatible back (buffer.drop front.length)) : Compatible (front ++ back) buffer := by
  rcases one with ⟨rest, rfl⟩ | long
  · rw [List.drop_left] at two
    rcases two with short | longer
    · exact Or.inl ((List.prefix_append_right_inj front).2 short)
    · exact Or.inr ((List.prefix_append_right_inj front).2 longer)
  · exact Or.inr (long.trans (List.prefix_append front back))

/-- Pad or cut a buffer to exactly `size` bytes. -/
theorem exists_padding (size : Nat) (buffer : List UInt8) :
    ∃ bytes : List UInt8, bytes.length = size ∧ Compatible bytes buffer := by
  by_cases enough : size ≤ buffer.length
  · exact ⟨buffer.take size, by simp [enough], Or.inl (List.take_prefix size buffer)⟩
  · refine ⟨buffer ++ List.replicate (size - buffer.length) 0, ?_,
      Or.inr (List.prefix_append buffer _)⟩
    rw [List.length_append, List.length_replicate]
    omega

/-- A length field and the bytes it declares, fitted to a buffer. -/
theorem exists_declared (width : Nat) (buffer : List UInt8) :
    ∃ len body : List UInt8, len.length = width ∧ beNat len = body.length ∧
      Compatible (len ++ body) buffer := by
  obtain ⟨len, len_size, len_fits⟩ := exists_padding width buffer
  obtain ⟨body, body_size, body_fits⟩ := exists_padding (beNat len) (buffer.drop len.length)
  exact ⟨len, body, len_size, body_size.symm, len_fits.append body_fits⟩

/-- `count` values in a row, when single values can be fitted to any buffer no longer than
this one. -/
theorem exists_compatible_all (count : Nat) (buffer : List UInt8)
    (single : ∀ shorter : List UInt8, shorter.length ≤ buffer.length →
      ∃ value bytes, Encodes value bytes ∧ Compatible bytes shorter) :
    ∃ values bytes, values.length = count ∧ EncodesAll values bytes ∧
      Compatible bytes buffer := by
  induction count generalizing buffer with
  | zero => exact ⟨[], [], rfl, .nil, compatible_nil buffer⟩
  | succ count ih =>
      obtain ⟨value, bytes, enc, fits⟩ := single buffer (Nat.le_refl _)
      have shrinks : (buffer.drop bytes.length).length ≤ buffer.length := by
        rw [List.length_drop]; omega
      obtain ⟨values, rest, size, enc_rest, fits_rest⟩ :=
        ih (buffer.drop bytes.length) fun shorter bound => single shorter (bound.trans shrinks)
      exact ⟨value :: values, bytes ++ rest, by simp [size], .cons enc enc_rest,
        fits.append fits_rest⟩

/-- The marker byte read back from its number. -/
theorem ofNat_toNat_eq {byte : UInt8} {number : Nat} (same : byte.toNat = number) :
    UInt8.ofNat number = byte := by
  rw [← same, UInt8.ofNat_toNat]

/-- **Prefix completeness of the grammar.**  Every byte string starts with, or can be continued
to, the encoding of some value. -/
theorem exists_compatible (buffer : List UInt8) :
    ∃ value bytes, Encodes value bytes ∧ Compatible bytes buffer := by
  induction total : buffer.length using Nat.strongRecOn generalizing buffer with
  | _ total ih =>
  match buffer with
  | [] => exact ⟨.nil, [0xc0], .nil, Or.inr List.nil_prefix⟩
  | marker :: rest =>
    have shorter : ∀ tail : List UInt8, tail.length ≤ rest.length →
        ∃ value bytes, Encodes value bytes ∧ Compatible bytes tail := by
      intro tail bound
      refine ih tail.length ?_ tail rfl
      rw [← total, List.length_cons]
      omega
    -- `count` values after `header` bytes of the rest, for the container formats.
    have many : ∀ (count : Nat) (header : List UInt8), Compatible header rest →
        ∃ values body, values.length = count ∧ EncodesAll values body ∧
          Compatible (header ++ body) rest := by
      intro count header fits
      obtain ⟨values, body, size, enc, fits_body⟩ :=
        exists_compatible_all count (rest.drop header.length) fun tail bound =>
          shorter tail (bound.trans (by rw [List.length_drop]; omega))
      exact ⟨values, body, size, enc, fits.append fits_body⟩
    have byte_bound := marker.toNat_lt
    -- The formats of the specification, in marker order.
    by_cases posFixint : marker.toNat < 0x80
    · exact ⟨_, _, .posFixint marker posFixint, (compatible_nil rest).cons marker⟩
    by_cases fixmap : marker.toNat < 0x90
    · obtain ⟨values, body, size, enc, fits⟩ :=
        many (2 * (marker.toNat - 0x80)) [] (compatible_nil rest)
      obtain ⟨entries, flat, count⟩ := exists_flattenEntries _ values size
      refine ⟨.map entries, marker :: body, ?_, fits.cons marker⟩
      have same : UInt8.ofNat (0x80 + entries.length) = marker :=
        ofNat_toNat_eq (by omega)
      rw [← same]
      exact .fixmap entries body (by omega) (flat ▸ enc)
    by_cases fixarray : marker.toNat < 0xa0
    · obtain ⟨values, body, size, enc, fits⟩ :=
        many (marker.toNat - 0x90) [] (compatible_nil rest)
      refine ⟨.array values, marker :: body, ?_, fits.cons marker⟩
      have same : UInt8.ofNat (0x90 + values.length) = marker :=
        ofNat_toNat_eq (by omega)
      rw [← same]
      exact .fixarray values body (by omega) enc
    by_cases fixstr : marker.toNat < 0xc0
    · obtain ⟨bytes, size, fits⟩ := exists_padding (marker.toNat - 0xa0) rest
      refine ⟨.str bytes, marker :: bytes, ?_, fits.cons marker⟩
      have same : UInt8.ofNat (0xa0 + bytes.length) = marker :=
        ofNat_toNat_eq (by omega)
      rw [← same]
      exact .fixstr bytes (by omega)
    by_cases negFixint : 0xe0 ≤ marker.toNat
    · exact ⟨_, _, .negFixint marker negFixint, (compatible_nil rest).cons marker⟩
    -- The markers from 0xc0 to 0xdf, in groups that differ by the width of a field.
    by_cases single : marker.toNat < 0xc4
    · have cases_of : marker.toNat = 0xc0 ∨ marker.toNat = 0xc1 ∨ marker.toNat = 0xc2 ∨
          marker.toNat = 0xc3 := by omega
      rcases cases_of with same | same | same | same <;>
        rw [← ofNat_toNat_eq same]
      · exact ⟨_, _, .nil, (compatible_nil rest).cons _⟩
      · exact ⟨_, _, .reserved, (compatible_nil rest).cons _⟩
      · exact ⟨_, _, .bool false, (compatible_nil rest).cons _⟩
      · exact ⟨_, _, .bool true, (compatible_nil rest).cons _⟩
    by_cases bin : marker.toNat < 0xc7
    · obtain ⟨width, same⟩ : ∃ width : Fin 3, marker.toNat = 0xc4 + width.val :=
        ⟨⟨marker.toNat - 0xc4, by omega⟩, by simp only; omega⟩
      obtain ⟨len, body, size, declared, fits⟩ := exists_declared (2 ^ width.val) rest
      rw [← ofNat_toNat_eq same]
      exact ⟨_, _, .bin width len body size declared, fits.cons _⟩
    by_cases ext : marker.toNat < 0xca
    · obtain ⟨width, same⟩ : ∃ width : Fin 3, marker.toNat = 0xc7 + width.val :=
        ⟨⟨marker.toNat - 0xc7, by omega⟩, by simp only; omega⟩
      obtain ⟨len, len_size, len_fits⟩ := exists_padding (2 ^ width.val) rest
      obtain ⟨body, body_size, body_fits⟩ :=
        exists_padding (beNat len + 1) (rest.drop len.length)
      obtain ⟨tag, data, rfl⟩ : ∃ tag data, body = tag :: data :=
        List.exists_cons_of_length_pos (by omega)
      rw [← ofNat_toNat_eq same]
      refine ⟨_, _, .ext width len tag data len_size ?_, (len_fits.append body_fits).cons _⟩
      simpa using body_size.symm
    by_cases f32 : marker.toNat < 0xcb
    · obtain ⟨bytes, size, fits⟩ := exists_padding 4 rest
      rw [← ofNat_toNat_eq (show marker.toNat = 0xca by omega)]
      exact ⟨_, _, .f32 bytes size, fits.cons _⟩
    by_cases f64 : marker.toNat < 0xcc
    · obtain ⟨bytes, size, fits⟩ := exists_padding 8 rest
      rw [← ofNat_toNat_eq (show marker.toNat = 0xcb by omega)]
      exact ⟨_, _, .f64 bytes size, fits.cons _⟩
    by_cases uint : marker.toNat < 0xd0
    · obtain ⟨width, same⟩ : ∃ width : Fin 4, marker.toNat = 0xcc + width.val :=
        ⟨⟨marker.toNat - 0xcc, by omega⟩, by simp only; omega⟩
      obtain ⟨bytes, size, fits⟩ := exists_padding (2 ^ width.val) rest
      rw [← ofNat_toNat_eq same]
      exact ⟨_, _, .uint width bytes size, fits.cons _⟩
    by_cases sint : marker.toNat < 0xd4
    · obtain ⟨width, same⟩ : ∃ width : Fin 4, marker.toNat = 0xd0 + width.val :=
        ⟨⟨marker.toNat - 0xd0, by omega⟩, by simp only; omega⟩
      obtain ⟨bytes, size, fits⟩ := exists_padding (2 ^ width.val) rest
      rw [← ofNat_toNat_eq same]
      exact ⟨_, _, .sint width bytes size, fits.cons _⟩
    by_cases fixext : marker.toNat < 0xd9
    · obtain ⟨width, same⟩ : ∃ width : Fin 5, marker.toNat = 0xd4 + width.val :=
        ⟨⟨marker.toNat - 0xd4, by omega⟩, by simp only; omega⟩
      obtain ⟨body, body_size, fits⟩ := exists_padding (2 ^ width.val + 1) rest
      obtain ⟨tag, data, rfl⟩ : ∃ tag data, body = tag :: data :=
        List.exists_cons_of_length_pos (body_size ▸ Nat.succ_pos _)
      rw [← ofNat_toNat_eq same]
      exact ⟨_, _, .fixext width tag data (by simpa using body_size), fits.cons _⟩
    by_cases str : marker.toNat < 0xdc
    · obtain ⟨width, same⟩ : ∃ width : Fin 3, marker.toNat = 0xd9 + width.val :=
        ⟨⟨marker.toNat - 0xd9, by omega⟩, by simp only; omega⟩
      obtain ⟨len, body, size, declared, fits⟩ := exists_declared (2 ^ width.val) rest
      rw [← ofNat_toNat_eq same]
      exact ⟨_, _, .str width len body size declared, fits.cons _⟩
    by_cases array : marker.toNat < 0xde
    · obtain ⟨width, same⟩ : ∃ width : Fin 2, marker.toNat = 0xdc + width.val :=
        ⟨⟨marker.toNat - 0xdc, by omega⟩, by simp only; omega⟩
      obtain ⟨len, len_size, len_fits⟩ := exists_padding (2 * 2 ^ width.val) rest
      obtain ⟨values, body, size, enc, fits⟩ := many (beNat len) len len_fits
      rw [← ofNat_toNat_eq same]
      exact ⟨_, _, .array width len values body len_size size.symm enc, fits.cons _⟩
    · obtain ⟨width, same⟩ : ∃ width : Fin 2, marker.toNat = 0xde + width.val :=
        ⟨⟨marker.toNat - 0xde, by omega⟩, by simp only; omega⟩
      obtain ⟨len, len_size, len_fits⟩ := exists_padding (2 * 2 ^ width.val) rest
      obtain ⟨values, body, size, enc, fits⟩ := many (2 * beNat len) len len_fits
      obtain ⟨entries, flat, count⟩ := exists_flattenEntries _ values size
      rw [← ofNat_toNat_eq same]
      exact ⟨_, _, .map width len entries body len_size count.symm (flat ▸ enc), fits.cons _⟩

end Bemtvi.Msgpack
