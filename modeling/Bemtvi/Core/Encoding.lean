/-
Module: Bemtvi.Core.Encoding
Purpose: `'fileencoding'`: reading a file's bytes as the first encoding of `'fileencodings'` they are
  well formed in, and writing a text back in an encoding.
Trusted boundary: human-reviewed model of bemtvi-core/src/encoding.rs:26-59, 76-94 and 123-248 for
  UTF-8, windows-1252 and UTF-16; encoding_rs is the parameter `Codec`, and `'fileencodings'` comes
  split at its commas and trimmed
Main exports: Encoding, Codec, Codec.Strict, decodeToRope, encodeFromStr, decoded_encodes, webCodec
-/
import Bemtvi.Lib.Utf8Bytes
import Bemtvi.Lib.Utf16

namespace Bemtvi.Core

open Utf8

/-- The encodings a file is read in here. -/
inductive Encoding where
  | utf8
  | windows1252
  | utf16le
  | utf16be
deriving Repr, DecidableEq

namespace Encoding

/-- `LATIN1`. -/
def latin1 : Encoding := windows1252

/-- The vim spelling, as `Display` gives it. -/
def name : Encoding → String
  | utf8 => "utf-8"
  | windows1252 => "latin1"
  | utf16le => "utf-16le"
  | utf16be => "utf-16be"

def ofName : String → Option Encoding
  | "utf-8" => some utf8
  | "latin1" => some windows1252
  | "utf-16le" => some utf16le
  | "utf-16be" => some utf16be
  | _ => none

@[simp] theorem ofName_name (enc : Encoding) : ofName enc.name = some enc := by
  cases enc <;> rfl

end Encoding

def bomBytes : Encoding → List UInt8
  | .utf8 => [0xEF, 0xBB, 0xBF]
  | .utf16le => [0xFF, 0xFE]
  | .utf16be => [0xFE, 0xFF]
  | .windows1252 => []

def utf16Endianness : Encoding → Option Bool
  | .utf16le => some true
  | .utf16be => some false
  | _ => none

/-- What is asked of encoding_rs. -/
structure Codec where
  /-- `from_label`, of a label that is not `ucs-bom`. -/
  forLabel : String → Option Encoding
  /-- `for_bom`: the encoding of a leading mark, and its length. -/
  forBom : List UInt8 → Option (Encoding × Nat)
  /-- `decode_without_bom_handling_and_without_replacement`. -/
  decode : Encoding → List UInt8 → Option Text
  /-- `encode`: the bytes, and whether a character could not be mapped. -/
  encode : Encoding → Text → List UInt8 × Bool

/-- The bytes of a text in UTF-16. -/
def utf16Bytes (littleEndian : Bool) (text : Text) : List UInt8 :=
  (Utf16.encode text).flatMap (Utf16.unitBytes littleEndian)

/-- The decoders accept exactly the well-formed streams, windows-1252 is a bijection on bytes, and a
sniffed mark is there. -/
structure Codec.Strict (codec : Codec) : Prop where
  decode_utf8 : ∀ bytes text, codec.decode .utf8 bytes = some text ↔ bytes = Utf8.bytes text
  decode_utf16 : ∀ enc littleEndian, utf16Endianness enc = some littleEndian → ∀ bytes text,
    codec.decode enc bytes = some text ↔ bytes = utf16Bytes littleEndian text
  encode_utf8 : ∀ text, codec.encode .utf8 text = (bytes text, false)
  windows1252 : ∃ table : UInt8 → Char, Function.Injective table ∧ ∀ bytes,
    codec.decode .windows1252 bytes = some (bytes.map table) ∧ ∀ text,
      codec.encode .windows1252 text = (bytes, false) ↔ text = bytes.map table
  sniffed : ∀ bytes enc length, codec.forBom bytes = some (enc, length) →
    bytes.take length = bomBytes enc

/-! ### Reading -/

/-- `decode_to_rope`: the text, the encoding it was read in, and whether it had a mark; `none` when
even windows-1252 refuses the bytes. -/
def decodeToRope (codec : Codec) (bytes : List UInt8) :
    List String → Option (Text × Encoding × Bool)
  | [] => (codec.decode .latin1 bytes).map fun text => (text, .latin1, false)
  | entry :: entries =>
      if entry = "ucs-bom" then
        match codec.forBom bytes with
        | some (enc, length) =>
            match codec.decode enc (bytes.drop length) with
            | some text => some (text, enc, true)
            | none => decodeToRope codec bytes entries
        | none => decodeToRope codec bytes entries
      else
        match codec.forLabel entry with
        | some enc =>
            match codec.decode enc bytes with
            | some text => some (text, enc, false)
            | none => decodeToRope codec bytes entries
        | none => decodeToRope codec bytes entries

/-! ### Writing -/

/-- `E513`. -/
inductive EncodeError where
  /-- A character the encoding cannot represent, and its byte offset. -/
  | cannotRepresent (ch : Char) (enc : Encoding) (offset : Nat)
  | unrepresentable (enc : Encoding)
deriving Repr, DecidableEq

/-- The first character that does not encode, with its byte offset. -/
def offending (codec : Codec) (enc : Encoding) : Nat → Text → Option (Char × Nat)
  | _, [] => none
  | offset, ch :: text =>
      if (codec.encode enc [ch]).2 then some (ch, offset)
      else offending codec enc (offset + ch.utf8Size) text

def encodeFromStr (codec : Codec) (text : Text) (enc : Encoding) (bomb : Bool) :
    Except EncodeError (List UInt8) :=
  let out := if bomb then bomBytes enc else []
  match utf16Endianness enc with
  | some littleEndian => .ok (out ++ utf16Bytes littleEndian text)
  | none =>
      let (bytes, hadUnmappable) := codec.encode enc text
      if hadUnmappable then
        match offending codec enc 0 text with
        | some (ch, offset) => .error (.cannotRepresent ch enc offset)
        | none => .error (.unrepresentable enc)
      else .ok (out ++ bytes)

/-! ### There and back -/

variable {codec : Codec}

/-- A text that was decoded from bytes encodes to them. -/
theorem encode_decode (strict : codec.Strict) {enc : Encoding} {bytes : List UInt8} {text : Text}
    (decoded : codec.decode enc bytes = some text) (bomb : Bool) :
    encodeFromStr codec text enc bomb = .ok ((if bomb then bomBytes enc else []) ++ bytes) := by
  cases enc with
  | utf8 =>
      have same := (strict.decode_utf8 bytes text).1 decoded
      have encoded := strict.encode_utf8 text
      simp [encodeFromStr, utf16Endianness, encoded, same]
  | windows1252 =>
      obtain ⟨table, -, both⟩ := strict.windows1252
      obtain ⟨decodes, encodes⟩ := both bytes
      rw [decodes] at decoded
      cases decoded
      simp [encodeFromStr, utf16Endianness, (encodes _).2 rfl]
  | utf16le =>
      have same := (strict.decode_utf16 .utf16le true rfl bytes text).1 decoded
      simp [encodeFromStr, utf16Endianness, same]
  | utf16be =>
      have same := (strict.decode_utf16 .utf16be false rfl bytes text).1 decoded
      simp [encodeFromStr, utf16Endianness, same]

/-- Two texts do not encode to the same bytes. -/
theorem encodeFromStr_inj (strict : codec.Strict) {enc : Encoding} {bomb : Bool}
    {text text' : Text} {bytes : List UInt8}
    (first : encodeFromStr codec text enc bomb = .ok bytes)
    (second : encodeFromStr codec text' enc bomb = .ok bytes) : text = text' := by
  have decoded : ∀ text, encodeFromStr codec text enc bomb = .ok bytes →
      ∃ body, bytes = (if bomb then bomBytes enc else []) ++ body ∧
        codec.decode enc body = some text := by
    intro text encoded
    have utf16 : ∀ littleEndian, utf16Endianness enc = some littleEndian →
        ∃ body, bytes = (if bomb then bomBytes enc else []) ++ body ∧
          codec.decode enc body = some text := by
      intro littleEndian little
      simp only [encodeFromStr, little, Except.ok.injEq] at encoded
      exact ⟨_, encoded.symm, (strict.decode_utf16 enc littleEndian little _ text).2 rfl⟩
    cases enc with
    | utf8 =>
        simp only [encodeFromStr, utf16Endianness, strict.encode_utf8, Bool.false_eq_true,
          if_false, Except.ok.injEq] at encoded
        exact ⟨_, encoded.symm, (strict.decode_utf8 _ text).2 rfl⟩
    | windows1252 =>
        obtain ⟨table, -, both⟩ := strict.windows1252
        simp only [encodeFromStr, utf16Endianness] at encoded
        split at encoded
        · split at encoded <;> cases encoded
        · rename_i mapped
          have whole : codec.encode .windows1252 text =
              ((codec.encode .windows1252 text).1, false) := by
            rw [Bool.not_eq_true] at mapped
            rw [← mapped]
          refine ⟨_, (Except.ok.inj encoded).symm, ?_⟩
          rw [(both _).1]
          exact congrArg some (((both _).2 text).1 whole).symm
    | utf16le => exact utf16 true rfl
    | utf16be => exact utf16 false rfl
  obtain ⟨body, split_, reads⟩ := decoded text first
  obtain ⟨body', split', reads'⟩ := decoded text' second
  have same := List.append_cancel_left (split_.symm.trans split')
  rw [same, reads'] at reads
  exact (Option.some.inj reads).symm

/-- **Reading always succeeds, and what was read encodes to the bytes it was read from.** -/
theorem decoded_encodes (strict : codec.Strict) (bytes : List UInt8) (fileencodings : List String) :
    ∃ text enc bomb, decodeToRope codec bytes fileencodings = some (text, enc, bomb) ∧
      encodeFromStr codec text enc bomb = .ok bytes := by
  induction fileencodings with
  | nil =>
      obtain ⟨table, -, both⟩ := strict.windows1252
      have decodes : codec.decode .latin1 bytes = some (bytes.map table) := (both bytes).1
      exact ⟨_, _, _, by rw [decodeToRope, decodes]; rfl, encode_decode strict decodes false⟩
  | cons entry entries ih =>
      rw [decodeToRope]
      split
      · split
        · rename_i enc length found
          split
          · rename_i text decoded
            refine ⟨text, enc, true, rfl, ?_⟩
            rw [encode_decode strict decoded true, if_pos rfl,
              ← strict.sniffed bytes enc length found, List.take_append_drop]
          · exact ih
        · exact ih
      · split
        · rename_i enc found
          split
          · rename_i text decoded
            exact ⟨text, enc, false, rfl, encode_decode strict decoded false⟩
          · exact ih
        · exact ih

/-! ### A codec -/

/-- The characters of the bytes `0x80` to `0x9F` in windows-1252. -/
def highTable : List Nat :=
  [0x20AC, 0x81, 0x201A, 0x192, 0x201E, 0x2026, 0x2020, 0x2021, 0x2C6, 0x2030, 0x160, 0x2039, 0x152,
    0x8D, 0x17D, 0x8F, 0x90, 0x2018, 0x2019, 0x201C, 0x201D, 0x2022, 0x2013, 0x2014, 0x2DC, 0x2122,
    0x161, 0x203A, 0x153, 0x9D, 0x17E, 0x178]

def windows1252Char (byte : UInt8) : Char :=
  Char.ofNat ((highTable[byte.toNat - 0x80]?.filter fun _ => 0x80 ≤ byte.toNat).getD byte.toNat)

/-- The byte of a character in windows-1252. -/
def windows1252Byte (c : Char) : Option UInt8 :=
  ((List.range 256).map UInt8.ofNat).find? fun byte => windows1252Char byte == c

/-- The codec of the encoding standard. -/
def webCodec : Codec where
  forLabel := Encoding.ofName
  forBom bytes :=
    if bytes.take 3 = bomBytes .utf8 then some (.utf8, 3)
    else if bytes.take 2 = bomBytes .utf16le then some (.utf16le, 2)
    else if bytes.take 2 = bomBytes .utf16be then some (.utf16be, 2)
    else none
  decode
    | .utf8, bytes => bytes.toByteArray.utf8Decode?.map Array.toList
    | .windows1252, bytes => some (bytes.map windows1252Char)
    | .utf16le, bytes => (Utf16.units true bytes).bind Utf16.decode
    | .utf16be, bytes => (Utf16.units false bytes).bind Utf16.decode
  encode
    | .windows1252, text =>
        (text.map fun c => (windows1252Byte c).getD 0x3F,
          text.any fun c => (windows1252Byte c).isNone)
    | _, text => (bytes text, false)

/-- The byte of a character, read off the table. -/
def windows1252Index (c : Char) : Nat :=
  if c.toNat ∈ highTable then 0x80 + highTable.idxOf c.toNat else c.toNat

theorem windows1252Char_inj {a b : UInt8} (same : windows1252Char a = windows1252Char b) : a = b := by
  have back : ∀ n < 256, windows1252Index (windows1252Char (UInt8.ofNat n)) = n := by
    decide +kernel
  have back_a := back a.toNat a.toNat_lt
  have back_b := back b.toNat b.toNat_lt
  rw [UInt8.ofNat_toNat] at back_a back_b
  rw [same, back_b] at back_a
  exact (UInt8.toNat_inj.1 back_a).symm

theorem windows1252Char_byte {c : Char} {byte : UInt8} (found : windows1252Byte c = some byte) :
    windows1252Char byte = c := by
  have here := List.find?_some found
  simpa using here

theorem windows1252Byte_char (byte : UInt8) :
    windows1252Byte (windows1252Char byte) = some byte := by
  cases found : windows1252Byte (windows1252Char byte) with
  | none =>
      have member : byte ∈ (List.range 256).map UInt8.ofNat :=
        List.mem_map.2 ⟨byte.toNat, List.mem_range.2 byte.toNat_lt, UInt8.ofNat_toNat⟩
      have differs := List.find?_eq_none.1 found byte member
      exact absurd (beq_self_eq_true _) differs
  | some other => rw [windows1252Char_inj (windows1252Char_byte found)]

theorem webCodec_strict : webCodec.Strict where
  decode_utf8 := by
    intro bytes text
    simp only [webCodec, Option.map_eq_some_iff]
    constructor
    · rintro ⟨chars, decoded, rfl⟩
      have valid : bytes.toByteArray.utf8Decode?.isSome := by rw [decoded]; rfl
      have whole := ByteArray.utf8Encode_get_utf8Decode? (b := bytes.toByteArray) (h := valid)
      simp only [decoded, Option.get_some] at whole
      exact (List.toByteArray_inj.1 whole).symm
    · rintro rfl
      exact ⟨text.toArray, List.utf8Decode?_utf8Encode, by simp⟩
  decode_utf16 := by
    intro enc littleEndian little bytes text
    have both : ∀ little, (Utf16.units little bytes).bind Utf16.decode = some text ↔
        bytes = utf16Bytes little text := by
      intro little
      rw [Option.bind_eq_some_iff]
      constructor
      · rintro ⟨units, read, decoded⟩
        rw [Utf16.units_eq_some.1 read, Utf16.decode_eq_some.1 decoded]
        rfl
      · rintro rfl
        exact ⟨_, Utf16.units_eq_some.2 rfl, Utf16.decode_eq_some.2 rfl⟩
    cases enc <;> cases little
    · exact both true
    · exact both false
  encode_utf8 := fun text => rfl
  windows1252 := by
    refine ⟨windows1252Char, ?_, fun bytes => ⟨rfl, fun text => ⟨fun encoded => ?_, ?_⟩⟩⟩
    · intro a b same
      have back := windows1252Byte_char a
      rw [same, windows1252Byte_char b] at back
      exact (Option.some.inj back).symm
    · obtain ⟨mapped, known⟩ := Prod.mk.inj encoded
      rw [← mapped, List.map_map]
      refine ((List.map_congr_left fun c mem => ?_).trans (List.map_id text)).symm
      have found : windows1252Byte c ≠ none := by
        intro missing
        have all := List.any_eq_false.1 known c mem
        simp [missing] at all
      obtain ⟨byte, found⟩ := Option.ne_none_iff_exists'.1 found
      simp [found, windows1252Char_byte found]
    · rintro rfl
      have mapped : (bytes.map windows1252Char).map (fun c => (windows1252Byte c).getD 0x3F) =
          bytes := by
        rw [List.map_map]
        refine (List.map_congr_left fun byte _ => ?_).trans (List.map_id bytes)
        simp [windows1252Byte_char]
      have known : (bytes.map windows1252Char).any (fun c => (windows1252Byte c).isNone) =
          false := by
        simp [windows1252Byte_char]
      exact Prod.ext mapped known
  sniffed := by
    intro bytes enc length found
    simp only [webCodec] at found
    split at found
    · rename_i mark
      cases found
      exact mark
    · split at found
      · rename_i mark
        cases found
        exact mark
      · split at found
        · rename_i mark
          cases found
          exact mark
        · cases found

end Bemtvi.Core
