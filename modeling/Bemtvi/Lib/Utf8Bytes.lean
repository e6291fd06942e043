/-
Module: Bemtvi.Lib.Utf8Bytes
Purpose: The UTF-8 bytes of a text, for code that scans bytes: an ASCII character is its one byte, and
  a wide one is a lead byte and continuations, none of which is ASCII.
Trusted boundary: human-reviewed spec
Main exports: bytes, byteOf, charOf, leadByte, encode_ascii, encode_wide, leadByte_eq_iff, exists_same_lead,
  exists_of_ascii_byte, exists_of_ascii_at, cut_behind, cut_inside
-/
import Bemtvi.Lib.Text

namespace Bemtvi.Utf8

/-- The bytes of a text. -/
def bytes (text : Text) : List UInt8 := text.flatMap String.utf8EncodeChar

/-- The byte of an ASCII character. -/
def byteOf (c : Char) : UInt8 := UInt8.ofNat c.toNat

/-- The character of an ASCII byte. -/
def charOf (b : UInt8) : Char := Char.ofNat b.toNat

/-- The first byte of a character. -/
def leadByte (c : Char) : UInt8 := (String.utf8EncodeChar c).headD 0

@[simp] theorem bytes_nil : bytes [] = [] := rfl

@[simp] theorem bytes_cons (c : Char) (text : Text) :
    bytes (c :: text) = String.utf8EncodeChar c ++ bytes text := List.flatMap_cons

@[simp] theorem bytes_append (front back : Text) : bytes (front ++ back) = bytes front ++ bytes back :=
  List.flatMap_append

@[simp] theorem length_bytes (text : Text) : (bytes text).length = size text := by
  induction text with
  | nil => rfl
  | cons c text ih => rw [bytes_cons, List.length_append, String.length_utf8EncodeChar, ih, size_cons]

theorem drop_bytes_append (front back : Text) : (bytes (front ++ back)).drop (size front) = bytes back := by
  rw [bytes_append, ← length_bytes, List.drop_left]

variable {c : Char}

/-- An ASCII character is its one byte. -/
theorem encode_ascii (ascii : c.toNat < 128) : String.utf8EncodeChar c = [UInt8.ofNat c.toNat] :=
  if_pos (Nat.le_of_lt_succ ascii)

theorem utf8Size_ascii (ascii : c.toNat < 128) : c.utf8Size = 1 := by
  rw [← String.length_utf8EncodeChar, encode_ascii ascii]
  rfl

/-- A byte of a character outside ASCII, behind its first. -/
def Continues (b : UInt8) : Prop := 128 ≤ b.toNat ∧ b.toNat < 192

/-- The bytes of a wide character. -/
structure Wide (c : Char) (conts : List UInt8) : Prop where
  encoded : String.utf8EncodeChar c = leadByte c :: conts
  lead : 192 ≤ (leadByte c).toNat
  some_cont : conts ≠ []
  conts : ∀ b ∈ conts, Continues b

theorem continues_ofNat (n : Nat) : Continues (UInt8.ofNat (n % 64 + 128)) := by
  have small : (UInt8.ofNat (n % 64 + 128)).toNat = n % 64 + 128 := by
    rw [UInt8.toNat_ofNat']
    omega
  rw [Continues, small]
  omega

/-- The byte behind the first that carries the six low bits of a number. -/
def contByte (n : Nat) : UInt8 := UInt8.ofNat (n % 64 + 128)

theorem wide_of_encoded {n base bits m : Nat} {more : List Nat}
    (encoded : String.utf8EncodeChar c =
      UInt8.ofNat (n % bits + base) :: (m :: more).map contByte) (fits : base + bits ≤ 256)
    (some_bits : 0 < bits) (high : 192 ≤ base) : Wide c ((m :: more).map contByte) := by
  have first : leadByte c = UInt8.ofNat (n % bits + base) := by
    rw [leadByte, encoded]
    rfl
  refine ⟨by rw [first, encoded], ?_, List.cons_ne_nil _ _, ?_⟩
  · have below := Nat.mod_lt n some_bits
    rw [first, UInt8.toNat_ofNat']
    omega
  · intro b member
    rcases List.mem_map.1 member with ⟨k, -, rfl⟩
    exact continues_ofNat k

theorem encode_wide (wide : 128 ≤ c.toNat) : ∃ conts, Wide c conts := by
  have beyond : ¬ c.val.toNat ≤ 0x7f := Nat.not_le.2 wide
  by_cases two : c.val.toNat ≤ 0x7ff
  · have encoded : String.utf8EncodeChar c = UInt8.ofNat (c.val.toNat / 64 % 0x20 + 0xc0) ::
        [c.val.toNat].map contByte := by
      rw [String.utf8EncodeChar, if_neg beyond, if_pos two]
      rfl
    exact ⟨_, wide_of_encoded encoded (by decide) (by decide) (by decide)⟩
  · by_cases three : c.val.toNat ≤ 0xffff
    · have encoded : String.utf8EncodeChar c = UInt8.ofNat (c.val.toNat / 4096 % 0x10 + 0xe0) ::
          [c.val.toNat / 64, c.val.toNat].map contByte := by
        rw [String.utf8EncodeChar, if_neg beyond, if_neg two, if_pos three]
        rfl
      exact ⟨_, wide_of_encoded encoded (by decide) (by decide) (by decide)⟩
    · have encoded : String.utf8EncodeChar c = UInt8.ofNat (c.val.toNat / 262144 % 0x08 + 0xf0) ::
          [c.val.toNat / 4096, c.val.toNat / 64, c.val.toNat].map contByte := by
        rw [String.utf8EncodeChar, if_neg beyond, if_neg two, if_neg three]
        rfl
      exact ⟨_, wide_of_encoded encoded (by decide) (by decide) (by decide)⟩

theorem leadByte_ascii (ascii : c.toNat < 128) : leadByte c = UInt8.ofNat c.toNat := by
  rw [leadByte, encode_ascii ascii]
  rfl

theorem toNat_leadByte_ascii (ascii : c.toNat < 128) : (leadByte c).toNat = c.toNat := by
  rw [leadByte_ascii ascii, UInt8.toNat_ofNat']
  omega

/-- An ASCII character is known by its first byte. -/
theorem leadByte_eq_iff {d : Char} (ascii : d.toNat < 128) : leadByte c = leadByte d ↔ c = d := by
  constructor
  · intro same
    rcases Nat.lt_or_ge c.toNat 128 with small | wide
    · have code : c.toNat = d.toNat := by
        rw [← toNat_leadByte_ascii small, same, toNat_leadByte_ascii ascii]
      exact Char.toNat_inj.1 code
    · obtain ⟨conts, bytes⟩ := encode_wide wide
      have high := bytes.lead
      rw [same, toNat_leadByte_ascii ascii] at high
      omega
  · rintro rfl
    rfl

theorem leadByte_wide (wide : 128 ≤ c.toNat) : leadByte c = UInt8.ofNat (
      if c.toNat ≤ 0x7ff then c.toNat / 64 % 0x20 + 0xc0
      else if c.toNat ≤ 0xffff then c.toNat / 4096 % 0x10 + 0xe0
      else c.toNat / 262144 % 0x08 + 0xf0) := by
  have beyond : ¬ c.val.toNat ≤ 0x7f := Nat.not_le.2 wide
  simp only [leadByte, String.utf8EncodeChar, if_neg beyond, Char.toNat]
  split
  · rfl
  · split <;> rfl

/-- A wide character shares its first byte with another. -/
theorem exists_same_lead (wide : 128 ≤ c.toNat) : ∃ c', c' ≠ c ∧ leadByte c' = leadByte c := by
  have valid : c.toNat.isValidChar := c.valid
  obtain ⟨n, apart, same, near, other⟩ : ∃ n, n ≠ c.toNat ∧ n / 64 = c.toNat / 64 ∧
      n / 2 = c.toNat / 2 ∧ n.isValidChar := by
    refine ⟨if c.toNat % 2 = 0 then c.toNat + 1 else c.toNat - 1, ?_⟩
    simp only [Nat.isValidChar] at valid ⊢
    split <;> omega
  have code : (Char.ofNat n).toNat = n := by
    rw [Char.toNat_ofNat, if_pos other]
  refine ⟨Char.ofNat n, ?_, ?_⟩
  · rintro rfl
    exact apart code.symm
  · have first : n / 4096 = c.toNat / 4096 := by omega
    have second : n / 262144 = c.toNat / 262144 := by omega
    have wide' : 128 ≤ (Char.ofNat n).toNat := by
      rw [code]
      omega
    have two : n ≤ 0x7ff ↔ c.toNat ≤ 0x7ff := by omega
    have three : n ≤ 0xffff ↔ c.toNat ≤ 0xffff := by omega
    rw [leadByte_wide wide, leadByte_wide wide', code, same, first, second]
    simp only [two, three]

theorem leadByte_lt_iff : (leadByte c).toNat < 128 ↔ c.toNat < 128 := by
  constructor
  · intro small
    by_contra wide
    obtain ⟨conts, encoded⟩ := encode_wide (Nat.le_of_not_lt wide)
    have high := encoded.lead
    omega
  · intro ascii
    rwa [toNat_leadByte_ascii ascii]

/-- The first byte of a text is its first character's. -/
theorem head_bytes (c : Char) (text : Text) : (bytes (c :: text)).head? = some (leadByte c) := by
  rw [bytes_cons, leadByte]
  cases encoded : String.utf8EncodeChar c with
  | nil => exact absurd encoded String.utf8EncodeChar_ne_nil
  | cons b rest => rfl

/-- **An ASCII byte is a character by itself**: what stands before it is whole. -/
theorem exists_of_ascii_byte {text : Text} {pre post : List UInt8} {b : UInt8}
    (ascii : b.toNat < 128) (found : bytes text = pre ++ b :: post) :
    ∃ front c back, text = front ++ c :: back ∧ bytes front = pre ∧ leadByte c = b ∧
      bytes back = post := by
  induction text generalizing pre with
  | nil => cases pre <;> cases found
  | cons c text ih =>
      rw [bytes_cons] at found
      rcases Nat.lt_or_ge c.toNat 128 with small | wide
      · rw [encode_ascii small] at found
        cases pre with
        | nil =>
            obtain ⟨same, rest⟩ := List.cons_eq_cons.1 found
            exact ⟨[], c, text, rfl, rfl, (leadByte_ascii small).trans same, rest⟩
        | cons b' pre =>
            obtain ⟨same, rest⟩ := List.cons_eq_cons.1 found
            obtain ⟨front, c', back, rfl, rfl, lead, rfl⟩ := ih rest
            refine ⟨c :: front, c', back, rfl, ?_, lead, rfl⟩
            rw [bytes_cons, encode_ascii small, same]
            rfl
      · obtain ⟨conts, encoded⟩ := encode_wide wide
        -- None of the wide character's bytes is the one found.
        have high : ∀ b' ∈ String.utf8EncodeChar c, 128 ≤ b'.toNat := by
          rw [encoded.encoded]
          intro b' member
          rcases List.mem_cons.1 member with rfl | member
          · exact Nat.le_trans (by decide) encoded.lead
          · exact (encoded.conts b' member).1
        rcases List.append_eq_append_iff.1 found with ⟨more, rfl, rest⟩ | ⟨more, whole, rest⟩
        · obtain ⟨front, c', back, rfl, rfl, lead, rfl⟩ := ih rest
          exact ⟨c :: front, c', back, rfl, bytes_cons _ _, lead, rfl⟩
        · cases more with
          | nil =>
              rw [List.append_nil] at whole
              have rest' : bytes text = [] ++ b :: post := rest.symm
              obtain ⟨front, c', back, rfl, same, lead, rfl⟩ := ih rest'
              refine ⟨c :: front, c', back, rfl, ?_, lead, rfl⟩
              rw [bytes_cons, same, List.append_nil, whole]
          | cons b' more =>
              obtain ⟨rfl, -⟩ := List.cons_eq_cons.1 rest
              have wide' := high b (whole ▸ List.mem_append_right _ List.mem_cons_self)
              omega

/-- A byte offset with an ASCII byte behind it lies between two characters. -/
theorem exists_of_ascii_at {text : Text} {byte : Nat} {b : UInt8} (ascii : b.toNat < 128)
    (here : ((bytes text).drop byte).head? = some b) :
    ∃ front c back, text = front ++ c :: back ∧ size front = byte ∧ leadByte c = b := by
  obtain ⟨post, behind⟩ := List.head?_eq_some_iff.1 here
  have inside : byte ≤ (bytes text).length := by
    by_contra beyond
    rw [List.drop_eq_nil_of_le (Nat.le_of_not_le beyond)] at behind
    cases behind
  have found : bytes text = (bytes text).take byte ++ b :: post := by
    rw [← behind, List.take_append_drop]
  obtain ⟨front, c, back, same, before, lead, -⟩ := exists_of_ascii_byte ascii found
  refine ⟨front, c, back, same, ?_, lead⟩
  rw [← length_bytes, before, List.length_take, Nat.min_eq_left inside]

/-- The cut behind an ASCII character. -/
theorem cut_behind (front : Text) (ascii : c.toNat < 128) (back : Text) :
    cut (front ++ c :: back) (size front + 1) = some (front ++ [c], back) := by
  have next := cut_append (front ++ [c]) back
  rwa [← List.append_cons, size_append, size_cons, utf8Size_ascii ascii] at next

/-- No cut falls inside a character. -/
theorem cut_inside {front back : Text} {byte : Nat} (after : size front < byte)
    (before : byte < size front + c.utf8Size) : cut (front ++ c :: back) byte = none := by
  rw [← Option.not_isSome_iff_eq_none, Option.isSome_iff_exists]
  rintro ⟨⟨front', back'⟩, found⟩
  obtain ⟨same, rfl⟩ := cut_eq_some.1 found
  rcases List.append_eq_append_iff.1 same with ⟨more, rfl, rest⟩ | ⟨more, rfl, rest⟩
  · cases more with
    | nil =>
        rw [List.append_nil] at after
        exact Nat.lt_irrefl _ after
    | cons c' more =>
        obtain ⟨rfl, -⟩ := List.cons_eq_cons.1 rest
        rw [size_append, size_cons] at before
        omega
  · rw [size_append] at after
    omega

end Bemtvi.Utf8
