/-
Module: Bemtvi.Lib.Percent
Purpose: Percent coding of bytes: a byte that is kept stands for itself, any other is a percent sign
  and two hexadecimal digits; decoding takes the coding back.
Trusted boundary: human-reviewed spec
Main exports: encode, decode, mem_encode, decode_encode
-/
import Mathlib

namespace Bemtvi.Percent

/-- `%`. -/
def sign : UInt8 := 37

/-- An upper-case hexadecimal digit. -/
def digit (n : Nat) : UInt8 := UInt8.ofNat (if n < 10 then 48 + n else 55 + n)

def encodeByte (keep : UInt8 → Bool) (b : UInt8) : List UInt8 :=
  if keep b then [b] else [sign, digit (b.toNat / 16), digit (b.toNat % 16)]

def encode (keep : UInt8 → Bool) (bytes : List UInt8) : List UInt8 :=
  bytes.flatMap (encodeByte keep)

/-- The value of a hexadecimal digit, of either case. -/
def value (b : UInt8) : Option Nat :=
  let n := b.toNat
  if 48 ≤ n ∧ n ≤ 57 then some (n - 48)
  else if 65 ≤ n ∧ n ≤ 70 then some (n - 55)
  else if 97 ≤ n ∧ n ≤ 102 then some (n - 87)
  else none

/-- Two digits, or a plus and a digit. -/
def pair (high low : UInt8) : Option UInt8 :=
  if high = 43 then (value low).map UInt8.ofNat
  else
    match value high, value low with
    | some high, some low => some (UInt8.ofNat (16 * high + low))
    | _, _ => none

/-- A percent sign that no two digits follow stands for itself. -/
def decode : List UInt8 → List UInt8
  | [] => []
  | [b] => [b]
  | [b, c] => [b, c]
  | b :: high :: low :: rest =>
      if b = sign then
        match pair high low with
        | some v => v :: decode rest
        | none => b :: decode (high :: low :: rest)
      else b :: decode (high :: low :: rest)

theorem value_digit {n : Nat} (small : n < 16) : value (digit n) = some n := by
  interval_cases n <;> rfl

theorem digit_ne_plus {n : Nat} (small : n < 16) : digit n ≠ 43 := by
  interval_cases n <;> decide

theorem pair_digits (b : UInt8) :
    pair (digit (b.toNat / 16)) (digit (b.toNat % 16)) = some b := by
  have below := b.toNat_lt
  have high : b.toNat / 16 < 16 := by omega
  have low : b.toNat % 16 < 16 := by omega
  rw [pair, if_neg (digit_ne_plus high), value_digit high, value_digit low]
  simp only [Nat.div_add_mod]
  rw [UInt8.ofNat_toNat]

theorem decode_cons {b : UInt8} (plain : b ≠ sign) (rest : List UInt8) :
    decode (b :: rest) = b :: decode rest := by
  rcases rest with _ | ⟨high, _ | ⟨low, rest⟩⟩
  · rfl
  · rfl
  · rw [decode, if_neg plain]

variable {bytes : List UInt8} {keep : UInt8 → Bool}

theorem encode_congr {keep' : UInt8 → Bool} (same : ∀ b ∈ bytes, keep b = keep' b) :
    encode keep bytes = encode keep' bytes := by
  refine List.flatMap_congr fun b among => ?_
  rw [encodeByte, encodeByte, same b among]

/-- What a coding is made of. -/
theorem mem_encode {b : UInt8} (among : b ∈ encode keep bytes) :
    keep b = true ∨ b = sign ∨ ∃ n < 16, b = digit n := by
  obtain ⟨b', -, among⟩ := List.mem_flatMap.1 among
  have below := b'.toNat_lt
  rw [encodeByte] at among
  split at among
  · next kept => exact .inl (List.mem_singleton.1 among ▸ kept)
  · simp only [List.mem_cons, List.not_mem_nil, or_false] at among
    rcases among with rfl | rfl | rfl
    · exact .inr (.inl rfl)
    · exact .inr (.inr ⟨b'.toNat / 16, by omega, rfl⟩)
    · exact .inr (.inr ⟨b'.toNat % 16, by omega, rfl⟩)

/-- Decoding takes the coding back, whatever is kept but the sign. -/
theorem decode_encode (coded : keep sign = false) (bytes : List UInt8) :
    decode (encode keep bytes) = bytes := by
  induction bytes with
  | nil => rfl
  | cons b bytes ih =>
      rw [encode, List.flatMap_cons, ← encode, encodeByte]
      split
      · next kept =>
          have plain : b ≠ sign := by
            rintro rfl
            rw [coded] at kept
            cases kept
          rw [List.cons_append, List.nil_append, decode_cons plain, ih]
      · rw [List.cons_append, List.cons_append, List.cons_append, List.nil_append, decode,
          if_pos rfl, pair_digits]
        simp only [ih]

end Bemtvi.Percent
