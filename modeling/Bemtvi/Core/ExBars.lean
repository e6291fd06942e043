/-
Module: Bemtvi.Core.ExBars
Purpose: The splitting of a command line at its bars, seen by characters: where it panics, where it
  takes the command's name to start, and where it cuts a substitute.
Trusted boundary: none
Main exports: addresses, scanBar, splitExBar_eq, cutAtBar_spec, SplitsSafely, splitsSafely_iff
-/
import Bemtvi.Core.ExLine

namespace Bemtvi.Core.ExLine

open Utf8

/-! ### Bytes and characters -/

/-- What a byte scanner asks of a byte, asked of a character. -/
def isAddressChar (c : Char) : Bool :=
  [' ', '\t', ':', '.', '$', '%', ',', ';', '+', '-'].contains c || c.isDigit

variable {c : Char} {b : UInt8}

/-- What holds of every ASCII code holds of every ASCII character. -/
theorem forall_ascii {p : Char → Prop} (all : ∀ n < 128, p (Char.ofNat n)) (ascii : c.toNat < 128) :
    p c := by
  have here := all c.toNat ascii
  rwa [Char.ofNat_toNat] at here

theorem isAddressByte_ascii (ascii : c.toNat < 128) :
    isAddressByte (UInt8.ofNat c.toNat) = isAddressChar c := by
  revert ascii
  refine forall_ascii (p := fun c => isAddressByte (UInt8.ofNat c.toNat) = isAddressChar c) ?_
  decide

theorem isAddressByte_high (high : 128 ≤ b.toNat) : isAddressByte b = false := by
  have codes : ∀ n < 256, 128 ≤ n → isAddressByte (UInt8.ofNat n) = false := by decide +kernel
  have here := codes b.toNat b.toNat_lt high
  rwa [UInt8.ofNat_toNat] at here

theorem ascii_of_isAddressChar (address : isAddressChar c = true) : c.toNat < 128 := by
  simp only [isAddressChar, Bool.or_eq_true, List.contains_iff_mem, List.mem_cons, List.not_mem_nil,
    or_false, Char.isDigit, Bool.and_eq_true, decide_eq_true_eq] at address
  rcases address with (rfl | rfl | rfl | rfl | rfl | rfl | rfl | rfl | rfl | rfl) | ⟨-, below⟩
  all_goals first | decide | skip
  have bound : c.toNat ≤ 57 := below
  omega

theorem ne_of_high (high : 128 ≤ b.toNat) (ascii : c.toNat < 128) : b ≠ c.toUInt8 := by
  rintro rfl
  have small : c.toUInt8.toNat = c.toNat % 256 := UInt32.toNat_toUInt8 c.val
  omega

/-- A scanner's comparison with an ASCII character is one of characters. -/
theorem leadByte_eq_toUInt8 {d : Char} (ascii : d.toNat < 128) :
    leadByte c = d.toUInt8 ↔ c = d := by
  rw [← leadByte_eq_iff ascii, leadByte_ascii ascii]
  exact Iff.rfl

theorem bytes_cons_ascii (ascii : c.toNat < 128) (text : Text) :
    bytes (c :: text) = leadByte c :: bytes text := by
  rw [bytes_cons, encode_ascii ascii, leadByte_ascii ascii]
  rfl

theorem bytes_cons_wide (wide : 128 ≤ c.toNat) (text : Text) :
    ∃ conts, Wide c conts ∧ bytes (c :: text) = leadByte c :: (conts ++ bytes text) ∧
      c.utf8Size = conts.length + 1 := by
  obtain ⟨conts, encoded⟩ := encode_wide wide
  refine ⟨conts, encoded, ?_, ?_⟩
  · rw [bytes_cons, encoded.encoded]
    rfl
  · rw [← String.length_utf8EncodeChar, encoded.encoded]
    rfl

/-! ### Addresses -/

/-- The addresses in front of a command; `none` where a mark is named by a wide character. -/
def addresses : AddressMode Char → Text → Option Text
  | _, [] => some []
  | .between, c :: text =>
      if isAddressChar c then (addresses .between text).map (c :: ·)
      else if c = '\'' then (addresses .mark text).map (c :: ·)
      else if c = '/' ∨ c = '?' then (addresses (.search c) text).map (c :: ·)
      else some []
  | .mark, c :: text => if c.toNat < 128 then (addresses .between text).map (c :: ·) else none
  | .search d, c :: text =>
      if c = d then (addresses .between text).map (c :: ·)
      else if c = '\\' then (addresses (.escaped d) text).map (c :: ·)
      else (addresses (.search d) text).map (c :: ·)
  | .escaped d, c :: text => (addresses (.search d) text).map (c :: ·)

/-- The byte scanner's mode; a search's delimiter is ASCII. -/
inductive ByteMode : AddressMode Char → AddressMode UInt8 → Prop where
  | between : ByteMode .between .between
  | mark : ByteMode .mark .mark
  | search {d : Char} (ascii : d.toNat < 128) : ByteMode (.search d) (.search (leadByte d))
  | escaped {d : Char} (ascii : d.toNat < 128) : ByteMode (.escaped d) (.escaped (leadByte d))

theorem addressBytes_high (high : 128 ≤ b.toNat) (rest : List UInt8) :
    addressBytes .between (b :: rest) = 0 := by
  have quote := ne_of_high high (c := '\'') (by decide)
  have slash := ne_of_high high (c := '/') (by decide)
  have question := ne_of_high high (c := '?') (by decide)
  rw [addressBytes, isAddressByte_high high]
  simp [quote, slash, question]

theorem addressBytes_search_append {d : UInt8} (ascii : d.toNat < 128) {high : List UInt8}
    (wide : ∀ b ∈ high, 128 ≤ b.toNat) (rest : List UInt8) :
    addressBytes (.search d) (high ++ rest) = addressBytes (.search d) rest + high.length := by
  induction high with
  | nil => rfl
  | cons b high ih =>
      rw [List.forall_mem_cons] at wide
      have other : b ≠ d := by
        rintro rfl
        exact absurd ascii (Nat.not_lt.2 wide.1)
      rw [List.cons_append, addressBytes, if_neg other, if_neg (ne_of_high wide.1 (by decide)),
        ih wide.2, List.length_cons, Nat.add_assoc]

/-- How far the byte scanner gets: over the addresses, or into the mark's wide name. -/
def AddressesEnd (text : Text) (found : Option Text) (count : Nat) : Prop :=
  match found with
  | some front => front <+: text ∧ count = size front
  | none => ∃ front c back, text = front ++ c :: back ∧ size front < count ∧
      count < size front + c.utf8Size

theorem AddressesEnd.map_cons {text : Text} {found : Option Text} {count : Nat}
    (ends : AddressesEnd text found count) (c : Char) :
    AddressesEnd (c :: text) (found.map (c :: ·)) (count + c.utf8Size) := by
  cases found with
  | some front =>
      obtain ⟨front_text, rfl⟩ := ends
      refine ⟨List.prefix_cons_inj c |>.2 front_text, ?_⟩
      rw [size_cons, Nat.add_comm]
  | none =>
      obtain ⟨front, c', back, rfl, after, before⟩ := ends
      refine ⟨c :: front, c', back, rfl, ?_, ?_⟩
      · rw [size_cons]
        omega
      · rw [size_cons]
        omega

/-- **The byte scanner goes over the addresses, unless a mark has a wide name.** -/
theorem addresses_end {mode : AddressMode Char} {byteMode : AddressMode UInt8}
    (same : ByteMode mode byteMode) (text : Text) :
    AddressesEnd text (addresses mode text) (addressBytes byteMode (bytes text)) := by
  induction text generalizing mode byteMode with
  | nil =>
      have ends : AddressesEnd [] (some []) 0 := ⟨List.prefix_rfl, rfl⟩
      cases same <;> exact ends
  | cons c text ih =>
      rcases Nat.lt_or_ge c.toNat 128 with small | wide
      · have step {mode' : AddressMode Char} {byteMode' : AddressMode UInt8}
            (same' : ByteMode mode' byteMode') :
            AddressesEnd (c :: text) ((addresses mode' text).map (c :: ·))
              (addressBytes byteMode' (bytes text) + 1) := by
          have whole := (ih same').map_cons c
          rwa [utf8Size_ascii small] at whole
        rw [bytes_cons_ascii small]
        cases same with
        | between =>
            have address : isAddressByte (leadByte c) = isAddressChar c := by
              rw [leadByte_ascii small, isAddressByte_ascii small]
            simp only [addressBytes, addresses, address, leadByte_eq_toUInt8 (d := '\'') (by decide),
              leadByte_eq_toUInt8 (d := '/') (by decide), leadByte_eq_toUInt8 (d := '?') (by decide)]
            split
            · exact step .between
            · split
              · exact step .mark
              · split
                · exact step (.search small)
                · exact ⟨List.nil_prefix, rfl⟩
        | mark =>
            rw [addressBytes, addresses, if_pos small]
            exact step .between
        | @search d ascii =>
            simp only [addressBytes, addresses, leadByte_eq_iff ascii,
              leadByte_eq_toUInt8 (d := '\\') (by decide)]
            split
            · exact step .between
            · split
              · exact step (.escaped ascii)
              · exact step (.search ascii)
        | escaped ascii =>
            rw [addressBytes, addresses]
            exact step (.search ascii)
      · obtain ⟨conts, encoded, bytes, width⟩ := bytes_cons_wide wide text
        have lead_high : 128 ≤ (leadByte c).toNat := Nat.le_trans (by decide) encoded.lead
        have conts_high : ∀ b ∈ conts, 128 ≤ b.toNat := fun b member => (encoded.conts b member).1
        have ascii_ne {d : Char} (ascii : d.toNat < 128) : c ≠ d := by
          rintro rfl
          omega
        rw [bytes]
        cases same with
        | between =>
            have other : isAddressChar c = false := by
              rw [Bool.eq_false_iff]
              intro address
              have small := ascii_of_isAddressChar address
              omega
            rw [addressBytes_high lead_high, addresses, other, if_neg Bool.false_ne_true,
              if_neg (ascii_ne (by decide)),
              if_neg (not_or.2 ⟨ascii_ne (by decide), ascii_ne (by decide)⟩)]
            exact ⟨List.nil_prefix, rfl⟩
        | mark =>
            obtain ⟨b, more, rfl⟩ := List.exists_cons_of_ne_nil encoded.some_cont
            rw [List.forall_mem_cons] at conts_high
            rw [addressBytes, List.cons_append, addressBytes_high conts_high.1, addresses,
              if_neg (Nat.not_lt.2 wide)]
            refine ⟨[], c, text, rfl, Nat.one_pos, ?_⟩
            rw [size_nil, width, List.length_cons]
            omega
        | @search d ascii =>
            have ascii' := leadByte_lt_iff.2 ascii
            have other : leadByte c ≠ leadByte d := fun same =>
              ascii_ne ascii ((leadByte_eq_iff ascii).1 same)
            have whole := (ih (.search ascii)).map_cons c
            rw [addressBytes, if_neg other, if_neg (ne_of_high lead_high (by decide)),
              addressBytes_search_append ascii' conts_high, addresses, if_neg (ascii_ne ascii),
              if_neg (ascii_ne (by decide))]
            rwa [width, ← Nat.add_assoc] at whole
        | @escaped d ascii =>
            have whole := (ih (.search ascii)).map_cons c
            rw [addressBytes, addressBytes_search_append (leadByte_lt_iff.2 ascii) conts_high,
              addresses]
            rwa [width, ← Nat.add_assoc] at whole

/-! ### Bars -/

/-- The first bar behind so many sections and not behind a backslash; a section is closed by a
character with the delimiter's first byte. -/
def scanBar (lead : UInt8) : (escaped : Bool) → Nat → Text → Option (Text × Text)
  | _, _, [] => none
  | true, sections, c :: text =>
      (scanBar lead false sections text).map fun parts => (c :: parts.1, parts.2)
  | false, 0, c :: text =>
      if c = '|' then some ([], text)
      else (scanBar lead (c = '\\') 0 text).map fun parts => (c :: parts.1, parts.2)
  | false, sections + 1, c :: text =>
      if leadByte c = lead then
        (scanBar lead false sections text).map fun parts => (c :: parts.1, parts.2)
      else (scanBar lead (c = '\\') (sections + 1) text).map fun parts => (c :: parts.1, parts.2)

theorem scanBar_eq_some {lead : UInt8} {escaped : Bool} {sections : Nat} {text seg tail : Text}
    (found : scanBar lead escaped sections text = some (seg, tail)) : text = seg ++ '|' :: tail := by
  induction text generalizing escaped sections seg with
  | nil => cases escaped <;> cases sections <;> cases found
  | cons c text ih =>
      have step {escaped' : Bool} {sections' : Nat}
          (found' : ((scanBar lead escaped' sections' text).map fun parts => (c :: parts.1, parts.2)) =
            some (seg, tail)) : c :: text = seg ++ '|' :: tail := by
        obtain ⟨⟨seg', tail'⟩, inner, same⟩ := Option.map_eq_some_iff.1 found'
        cases same
        rw [ih inner]
        rfl
      cases escaped with
      | true => exact step (by rwa [scanBar] at found)
      | false =>
          cases sections with
          | zero =>
              rw [scanBar] at found
              split at found
              · next bar =>
                  cases found
                  rw [bar]
                  rfl
              · exact step found
          | succ sections =>
              rw [scanBar] at found
              split at found
              · exact step found
              · exact step found

/-- The bar the byte scanners find behind the sections. -/
def barFrom (lead : UInt8) (escaped : Bool) (sections : Nat) (bytes : List UInt8) : Option Nat :=
  let skipped := sectionBytes lead escaped sections bytes
  (barByte (sections = 0 && escaped) (bytes.drop skipped)).map (· + skipped)

section
variable (lead : UInt8)

theorem barFrom_step {escaped escaped' : Bool} {sections sections' : Nat} {b : UInt8}
    {bytes : List UInt8}
    (skip : sectionBytes lead escaped sections (b :: bytes) =
      if sections = 0 then 0 else sectionBytes lead escaped' sections' bytes + 1)
    (scan : sections = 0 → sections' = 0 ∧
      barByte escaped (b :: bytes) = (barByte escaped' bytes).map (· + 1))
    (closed : sections ≠ 0 → sections' = 0 → escaped' = false) :
    barFrom lead escaped sections (b :: bytes) =
      (barFrom lead escaped' sections' bytes).map (· + 1) := by
  by_cases none_left : sections = 0
  · obtain ⟨rfl, here⟩ := scan none_left
    subst none_left
    cases escaped <;> cases escaped' <;> simp [barFrom, sectionBytes, here] <;> rfl
  · rw [if_neg none_left] at skip
    rw [barFrom, skip, barFrom, List.drop_succ_cons]
    have first : (decide (sections = 0) && escaped) = false := by simp [none_left]
    have second : (decide (sections' = 0) && escaped') = false := by
      by_cases none_left' : sections' = 0
      · rw [closed none_left none_left', Bool.and_false]
      · simp [none_left']
    simp only [first, second, Option.map_map]
    rfl

theorem barFrom_nil (escaped : Bool) (sections : Nat) : barFrom lead escaped sections [] = none := by
  simp [barFrom, barByte]

theorem barFrom_escaped (sections : Nat) (b : UInt8) (bytes : List UInt8) :
    barFrom lead true sections (b :: bytes) =
      (barFrom lead false sections bytes).map (· + 1) := by
  apply barFrom_step
  · cases sections <;> rfl
  · exact fun none_left => ⟨none_left, rfl⟩
  · exact fun _ _ => rfl

theorem barFrom_zero (b : UInt8) (bytes : List UInt8) :
    barFrom lead false 0 (b :: bytes) =
      if b = '|'.toUInt8 then some 0
      else (barFrom lead (b = '\\'.toUInt8) 0 bytes).map (· + 1) := by
  split
  · next bar => simp [barFrom, sectionBytes, barByte, bar]
  · next other =>
      apply barFrom_step
      · rfl
      · exact fun _ => ⟨rfl, by rw [barByte, if_neg other]⟩
      · exact fun some_left => absurd rfl some_left

theorem barFrom_succ (sections : Nat) (b : UInt8) (bytes : List UInt8) :
    barFrom lead false (sections + 1) (b :: bytes) =
      if b = lead then (barFrom lead false sections bytes).map (· + 1)
      else (barFrom lead (b = '\\'.toUInt8) (sections + 1) bytes).map (· + 1) := by
  split
  · next closes =>
      apply barFrom_step
      · rw [if_neg (Nat.succ_ne_zero _), sectionBytes, if_pos closes]
      · exact fun none_left => absurd none_left (Nat.succ_ne_zero _)
      · exact fun _ _ => rfl
  · next other =>
      apply barFrom_step
      · rw [if_neg (Nat.succ_ne_zero _), sectionBytes, if_neg other]
      · exact fun none_left => absurd none_left (Nat.succ_ne_zero _)
      · exact fun _ none_left => absurd none_left (Nat.succ_ne_zero _)

/-- Continuation bytes are passed over. -/
theorem barFrom_append {conts : List UInt8} (high : ∀ b ∈ conts, Continues b)
    (apart : ¬ Continues lead) (sections : Nat) (rest : List UInt8) :
    barFrom lead false sections (conts ++ rest) =
      (barFrom lead false sections rest).map (· + conts.length) := by
  induction conts with
  | nil => simp
  | cons b conts ih =>
      rw [List.forall_mem_cons] at high
      have not_bar := ne_of_high high.1.1 (c := '|') (by decide)
      have not_escape : decide (b = '\\'.toUInt8) = false := by
        rw [decide_eq_false_iff_not]
        exact ne_of_high high.1.1 (by decide)
      have other : b ≠ lead := by
        rintro rfl
        exact apart high.1
      have step : barFrom lead false sections (b :: (conts ++ rest)) =
          (barFrom lead false sections (conts ++ rest)).map (· + 1) := by
        cases sections with
        | zero => rw [barFrom_zero, if_neg not_bar, not_escape]
        | succ sections => rw [barFrom_succ, if_neg other, not_escape]
      rw [List.cons_append, step, ih high.2, Option.map_map, List.length_cons]
      rfl

/-- **The byte scanners find the bar the character scanner finds.** -/
theorem barFrom_bytes (apart : ¬ Continues lead) (escaped : Bool) (sections : Nat) (text : Text) :
    barFrom lead escaped sections (bytes text) =
      (scanBar lead escaped sections text).map fun parts => size parts.1 := by
  induction text generalizing escaped sections with
  | nil =>
      rw [bytes_nil, barFrom_nil]
      cases escaped <;> cases sections <;> rfl
  | cons c text ih =>
      -- A character's first byte decides, and the others follow it.
      obtain ⟨conts, whole, width, high⟩ : ∃ conts, bytes (c :: text) =
          leadByte c :: (conts ++ bytes text) ∧ c.utf8Size = conts.length + 1 ∧
            (conts = [] ∨ 128 ≤ c.toNat) ∧ ∀ b ∈ conts, Continues b := by
        rcases Nat.lt_or_ge c.toNat 128 with small | wide
        · exact ⟨[], bytes_cons_ascii small text, utf8Size_ascii small, Or.inl rfl, by simp⟩
        · obtain ⟨conts, encoded, whole, width⟩ := bytes_cons_wide wide text
          exact ⟨conts, whole, width, Or.inr wide, encoded.conts⟩
      obtain ⟨narrow, high⟩ := high
      have onward (escaped' : Bool) (sections' : Nat) (plain : conts = [] ∨ escaped' = false) :
          (barFrom lead escaped' sections' (conts ++ bytes text)).map (· + 1) =
            ((scanBar lead escaped' sections' text).map fun parts => (c :: parts.1, parts.2)).map
              fun parts => size parts.1 := by
        have inner : barFrom lead escaped' sections' (conts ++ bytes text) =
            (barFrom lead escaped' sections' (bytes text)).map (· + conts.length) := by
          rcases plain with rfl | rfl
          · simp
          · exact barFrom_append lead high apart sections' _
        rw [inner, ih]
        simp only [Option.map_map]
        congr 1
        funext pair
        simp only [Function.comp, size_cons, width]
        omega
      have escapes : decide (leadByte c = '\\'.toUInt8) = decide (c = '\\') :=
        decide_eq_decide.2 (leadByte_eq_toUInt8 (by decide))
      have plain : conts = [] ∨ decide (c = '\\') = false := by
        rcases narrow with rfl | wide
        · exact Or.inl rfl
        · refine Or.inr (decide_eq_false_iff_not.2 ?_)
          rintro rfl
          revert wide
          decide
      rw [whole]
      cases escaped with
      | true => rw [barFrom_escaped, onward _ _ (Or.inr rfl), scanBar]
      | false =>
          cases sections with
          | zero =>
              rw [barFrom_zero, scanBar, escapes]
              simp only [leadByte_eq_toUInt8 (d := '|') (by decide)]
              split
              · rfl
              · exact onward _ _ plain
          | succ sections =>
              rw [barFrom_succ, scanBar, escapes]
              split
              · exact onward _ _ (Or.inr rfl)
              · exact onward _ _ plain

end

/-- **The cut a scan makes.** -/
theorem cutAtBar_eq (lead : UInt8) (apart : ¬ Continues lead) (sections : Nat) (front text : Text) :
    cutAtBar (front ++ text) (size front + sectionBytes lead false sections (bytes text)) =
      some ((scanBar lead false sections text).map fun parts => (front ++ parts.1, parts.2)) := by
  have found := barFrom_bytes lead apart false sections text
  rw [barFrom, Bool.and_false] at found
  rw [cutAtBar, bytes_append, ← length_bytes front, List.drop_length_add_append]
  cases bar : barByte false ((bytes text).drop (sectionBytes lead false sections (bytes text))) with
  | none =>
      rw [bar, Option.map_none, eq_comm, Option.map_eq_none_iff] at found
      rw [found]
      rfl
  | some k =>
      rw [bar, Option.map_some, eq_comm, Option.map_eq_some_iff] at found
      obtain ⟨⟨seg, tail⟩, scanned, length⟩ := found
      have parts := scanBar_eq_some scanned
      subst parts
      have here : (bytes front).length + sectionBytes lead false sections (bytes (seg ++ '|' :: tail)) +
          k = size (front ++ seg) := by
        rw [size_append, length_bytes]
        simp only at length
        omega
      simp only [here]
      rw [← List.append_assoc, cut_append, Option.bind_some, cut_behind _ (by decide), scanned]
      rfl

/-! ### The split -/

theorem isAlpha_lt (letter : c.isAlpha = true) : c.toNat < 128 := by
  simp only [Char.isAlpha, Char.isUpper, Char.isLower, Bool.or_eq_true, Bool.and_eq_true,
    decide_eq_true_eq, ge_iff_le] at letter
  rcases letter with ⟨-, below⟩ | ⟨-, below⟩
  · exact Nat.lt_of_le_of_lt below (by decide)
  · exact Nat.lt_of_le_of_lt below (by decide)

/-- The bytes that are letters are the characters that are. -/
theorem letterBytes_bytes (text : Text) :
    letterBytes (bytes text) = size (text.takeWhile Char.isAlpha) := by
  induction text with
  | nil => rfl
  | cons c text ih =>
      rcases Nat.lt_or_ge c.toNat 128 with small | wide
      · have letter : (('A'.toUInt8 ≤ leadByte c && leadByte c ≤ 'Z'.toUInt8) ||
            ('a'.toUInt8 ≤ leadByte c && leadByte c ≤ 'z'.toUInt8)) = c.isAlpha := by
          rw [leadByte_ascii small]
          revert small
          refine forall_ascii (p := fun c => (('A'.toUInt8 ≤ UInt8.ofNat c.toNat &&
            UInt8.ofNat c.toNat ≤ 'Z'.toUInt8) || ('a'.toUInt8 ≤ UInt8.ofNat c.toNat &&
            UInt8.ofNat c.toNat ≤ 'z'.toUInt8)) = c.isAlpha) ?_
          decide
        rw [bytes_cons_ascii small, letterBytes, List.takeWhile_cons, List.takeWhile_cons, letter]
        split
        · rw [List.length_cons, size_cons, utf8Size_ascii small, ← ih, letterBytes, Nat.add_comm]
        · rfl
      · obtain ⟨conts, encoded, bytes, -⟩ := bytes_cons_wide wide text
        have other : c.isAlpha = false := by
          rw [Bool.eq_false_iff]
          intro letter
          have small := isAlpha_lt letter
          omega
        have high := encoded.lead
        have below : ¬ leadByte c ≤ 'Z'.toUInt8 ∧ ¬ leadByte c ≤ 'z'.toUInt8 := by
          simp only [UInt8.le_iff_toNat_le, Nat.not_le]
          exact ⟨Nat.lt_of_lt_of_le (by decide) high, Nat.lt_of_lt_of_le (by decide) high⟩
        rw [bytes, letterBytes, List.takeWhile_cons, List.takeWhile_cons, other]
        simp [below.1, below.2]

/-- Where `split_ex_bar` starts to look for a bar, behind the addresses and on the name `name`. -/
def scanStart (front name args : Text) : Nat :=
  let sections := exPatternSections name
  if sections > 0 then size front + size name + patternSectionsEnd (bytes args) sections
  else size front

/-- **`split_ex_bar` behind the addresses.** -/
theorem splitExBar_eq {front rest : Text}
    (whole : addresses .between (front ++ rest) = some front) :
    exNameStart (front ++ rest) = size front ∧
    splitExBar (front ++ rest) =
      if rest.head? = some '!' ∨ rest.head? = some '=' then some none
      else if exTakesBar (rest.takeWhile Char.isAlpha) then some none
      else
        cutAtBar (front ++ rest)
          (scanStart front (rest.takeWhile Char.isAlpha) (rest.dropWhile Char.isAlpha)) := by
  have ends := addresses_end .between (front ++ rest)
  rw [whole] at ends
  have start : exNameStart (front ++ rest) = size front := ends.2
  refine ⟨start, ?_⟩
  have head : ((bytes (front ++ rest)).drop (size front)).head? = rest.head?.map leadByte := by
    rw [drop_bytes_append]
    cases rest with
    | nil => rfl
    | cons c rest => exact head_bytes c rest
  have first (d : Char) (ascii : d.toNat < 128) :
      rest.head?.map leadByte = some d.toUInt8 ↔ rest.head? = some d := by
    cases rest with
    | nil => simp
    | cons c rest => simp [leadByte_eq_toUInt8 ascii]
  have name := cut_append (rest.takeWhile Char.isAlpha) (rest.dropWhile Char.isAlpha)
  rw [List.takeWhile_append_dropWhile] at name
  rw [splitExBar, start]
  simp only [head, first '!' (by decide), first '=' (by decide), cut_append, Option.bind_some,
    letterBytes_bytes, name]
  rfl

theorem barByte_eq_some {escaped : Bool} {bytes : List UInt8} {k : Nat}
    (bar : barByte escaped bytes = some k) :
    ∃ pre post, bytes = pre ++ '|'.toUInt8 :: post ∧ pre.length = k := by
  induction bytes generalizing escaped k with
  | nil => cases escaped <;> cases bar
  | cons b bytes ih =>
      have step {escaped' : Bool} (found : (barByte escaped' bytes).map (· + 1) = some k) :
          ∃ pre post, b :: bytes = pre ++ '|'.toUInt8 :: post ∧ pre.length = k := by
        obtain ⟨k', inner, rfl⟩ := Option.map_eq_some_iff.1 found
        obtain ⟨pre, post, rfl, rfl⟩ := ih inner
        exact ⟨b :: pre, post, rfl, rfl⟩
      cases escaped with
      | true => exact step bar
      | false =>
          rw [barByte] at bar
          split at bar
          · next here =>
              cases bar
              exact ⟨[], bytes, by rw [here]; rfl, rfl⟩
          · exact step bar

/-- **A cut at a bar leaves the two sides of it.** -/
theorem cutAtBar_spec (cmd : Text) (start : Nat) :
    ∃ parts, cutAtBar cmd start = some parts ∧
      ∀ seg tail, parts = some (seg, tail) → cmd = seg ++ '|' :: tail := by
  rw [cutAtBar]
  cases bar : barByte false ((bytes cmd).drop start) with
  | none => exact ⟨none, rfl, fun _ _ absent => by cases absent⟩
  | some k =>
      obtain ⟨pre, post, behind, rfl⟩ := barByte_eq_some bar
      have here : ((bytes cmd).drop (start + pre.length)).head? = some '|'.toUInt8 := by
        rw [← List.drop_drop, behind, List.drop_left, List.head?_cons]
      obtain ⟨front, c, back, rfl, length, lead⟩ := exists_of_ascii_at (by decide) here
      obtain rfl : c = '|' := (leadByte_eq_toUInt8 (by decide)).1 lead
      simp only [← length, cut_append, Option.bind_some]
      rw [cut_behind _ (by decide), Option.map_some]
      refine ⟨_, rfl, ?_⟩
      rintro _ _ ⟨⟩
      rfl

/-- The split goes through, and its parts are the two sides of a bar. -/
def SplitsSafely (line : Text) : Prop :=
  ∃ parts, splitExBar line = some parts ∧
    ∀ seg tail, parts = some (seg, tail) → line = seg ++ '|' :: tail

/-- Every mark that the addresses in front of the command come to has an ASCII name. -/
def MarksAscii (line : Text) : Prop := addresses .between line ≠ none

/-- **The split panics exactly at a mark with a wide name.** -/
theorem splitsSafely_iff (line : Text) : SplitsSafely line ↔ MarksAscii line := by
  have ends := addresses_end .between line
  constructor
  · rintro ⟨parts, split, -⟩ wide
    rw [wide] at ends
    obtain ⟨front, c, back, rfl, after, before⟩ := ends
    have inside : cut (front ++ c :: back) (exNameStart (front ++ c :: back)) = none :=
      cut_inside after before
    -- Neither a `!` nor a `=` stands where no character starts.
    have no_byte {b : UInt8} (ascii : b.toNat < 128)
        (here : ((bytes (front ++ c :: back)).drop (exNameStart (front ++ c :: back))).head? = some b) :
        False := by
      obtain ⟨front', c', back', same, length, -⟩ := exists_of_ascii_at ascii here
      rw [same] at inside length
      rw [← length, cut_append] at inside
      cases inside
    rw [splitExBar, inside] at split
    simp only at split
    rw [if_neg (not_or.2 ⟨no_byte (by decide), no_byte (by decide)⟩)] at split
    cases split
  · intro ascii
    obtain ⟨front, whole⟩ := Option.ne_none_iff_exists'.1 ascii
    rw [whole] at ends
    obtain ⟨⟨rest, rfl⟩, -⟩ := ends
    rw [SplitsSafely, (splitExBar_eq whole).2]
    split
    · exact ⟨none, rfl, fun _ _ absent => by cases absent⟩
    · split
      · exact ⟨none, rfl, fun _ _ absent => by cases absent⟩
      · exact cutAtBar_spec _ _

end Bemtvi.Core.ExLine
