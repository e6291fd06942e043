/-
Module: Bemtvi.Core.ExSubstitutes
Purpose: A substitute on a command line: the pattern and the replacement the dispatch reads off the
  whole line, and where the splitter cuts it.
Trusted boundary: none
Main exports: rawSection, splitSubstitute_eq, InSections, splitExBar_substitute
-/
import Bemtvi.Core.ExRanges

namespace Bemtvi.Core.ExLine

open Utf8

/-! ### Sections -/

/-- A section as it is written. -/
def rawSection (delim : Char) : (escaped : Bool) → Text → Text
  | _, [] => []
  | true, c :: body => c :: rawSection delim false body
  | false, c :: body =>
      if c = '\\' then c :: rawSection delim true body
      else if c = delim then []
      else c :: rawSection delim false body

/-- A section with the backslashes before its delimiter dropped. -/
def unescapeSection (delim : Char) : (escaped : Bool) → Text → Text
  | false, [] => []
  | true, [] => ['\\']
  | true, c :: text =>
      if c = delim then c :: unescapeSection delim false text
      else '\\' :: c :: unescapeSection delim false text
  | false, c :: text =>
      if c = '\\' then unescapeSection delim true text else c :: unescapeSection delim false text

/-- What is left behind a section and its delimiter. -/
def behindSection (delim : Char) (body : Text) : Text :=
  body.drop ((rawSection delim false body).length + 1)

theorem rawSection_front (delim : Char) (escaped : Bool) (body : Text) :
    rawSection delim escaped body <+: body := by
  induction body generalizing escaped with
  | nil => cases escaped <;> exact List.prefix_rfl
  | cons c body ih =>
      cases escaped with
      | true => exact (List.prefix_cons_inj c).2 (ih false)
      | false =>
          rw [rawSection]
          split
          · exact (List.prefix_cons_inj c).2 (ih true)
          · split
            · exact List.nil_prefix
            · exact (List.prefix_cons_inj c).2 (ih false)

theorem length_rawSection_le (delim : Char) (escaped : Bool) (body : Text) :
    (rawSection delim escaped body).length ≤ body.length :=
  (rawSection_front delim escaped body).length_le

/-- What a section reads, and what it leaves. -/
theorem readSection_eq (delim : Char) (escaped : Bool) (body : Text) :
    (readSection delim escaped body).1 =
        unescapeSection delim escaped (rawSection delim escaped body) ∧
      (readSection delim escaped body).2 =
        if (rawSection delim escaped body).length = body.length then none
        else some (body.drop ((rawSection delim escaped body).length + 1)) := by
  induction body generalizing escaped with
  | nil => cases escaped <;> exact ⟨rfl, rfl⟩
  | cons c body ih =>
      cases escaped with
      | true =>
          obtain ⟨text, rest⟩ := ih false
          simp [readSection, rawSection, unescapeSection, text, rest]
      | false =>
          rw [readSection, rawSection]
          split
          · next backslash =>
              obtain ⟨text, rest⟩ := ih true
              simp [unescapeSection, backslash, text, rest]
          · next plain =>
              split
              · exact ⟨rfl, rfl⟩
              · obtain ⟨text, rest⟩ := ih false
                simp [unescapeSection, plain, text, rest]

/-- **The pattern and the replacement are the first two sections.** -/
theorem splitSubstitute_eq (body : Text) (delim : Char) :
    (splitSubstitute body delim).1 = unescapeSection delim false (rawSection delim false body) ∧
      (splitSubstitute body delim).2.1 =
        unescapeSection delim false (rawSection delim false (behindSection delim body)) := by
  obtain ⟨pattern, rest⟩ := readSection_eq delim false body
  refine ⟨pattern, ?_⟩
  simp only [splitSubstitute, rest]
  split
  · next whole =>
      rw [behindSection, whole, List.drop_eq_nil_of_le (Nat.le_succ _)]
      rfl
  · exact (readSection_eq delim false _).1

/-- The character behind `part` is one of the pattern or of the replacement. -/
def InSections (delim : Char) (body part : Text) : Prop :=
  let pat := (rawSection delim false body).length
  part.length < pat ∨
    (pat + 1 ≤ part.length ∧
      part.length < pat + 1 + (rawSection delim false (behindSection delim body)).length)

variable {body front name : Text} {c : Char}

theorem InSections.lt {delim : Char} {part : Text} (inside : InSections delim body part) :
    part.length < body.length := by
  have pat := length_rawSection_le delim false body
  have rep := length_rawSection_le delim false (behindSection delim body)
  have left : (behindSection delim body).length =
      body.length - ((rawSection delim false body).length + 1) := List.length_drop
  simp only [InSections] at inside
  omega

/-- Cutting a body short cuts its sections short. -/
theorem rawSection_of_prefix (delim : Char) (short : front <+: body) (escaped : Bool) :
    rawSection delim escaped front = rawSection delim escaped body ∨
      (rawSection delim escaped front = front ∧
        front.length ≤ (rawSection delim escaped body).length) := by
  induction front generalizing escaped body with
  | nil =>
      refine Or.inr ⟨?_, Nat.zero_le _⟩
      cases escaped <;> rfl
  | cons c front ih =>
      obtain ⟨more, rfl⟩ := short
      have step (escaped' : Bool) := ih (List.prefix_append front more) escaped'
      cases escaped with
      | true =>
          rcases step false with same | ⟨whole, length⟩
          · exact Or.inl (by rw [List.cons_append, rawSection, rawSection, same])
          · refine Or.inr ⟨by rw [rawSection, whole], ?_⟩
            rw [List.cons_append, rawSection]
            exact Nat.succ_le_succ length
      | false =>
          rw [List.cons_append, rawSection, rawSection]
          split
          · rcases step true with same | ⟨whole, length⟩
            · exact Or.inl (by rw [same])
            · exact Or.inr ⟨by rw [whole], Nat.succ_le_succ length⟩
          · split
            · exact Or.inl rfl
            · rcases step false with same | ⟨whole, length⟩
              · exact Or.inl (by rw [same])
              · exact Or.inr ⟨by rw [whole], Nat.succ_le_succ length⟩

/-- What lies in the sections of a front lies in those of the whole body. -/
theorem InSections.of_prefix {delim : Char} {part : Text} (short : front <+: body)
    (inside : InSections delim front part) : InSections delim body part := by
  rcases rawSection_of_prefix delim short false with same | ⟨whole, length⟩
  · have short' : behindSection delim front <+: behindSection delim body := by
      rw [behindSection, behindSection, same]
      exact short.drop _
    have rep : (rawSection delim false (behindSection delim front)).length ≤
        (rawSection delim false (behindSection delim body)).length := by
      rcases rawSection_of_prefix delim short' false with same' | ⟨whole', length'⟩
      · rw [same']
      · rwa [whole']
    simp only [InSections, same] at inside ⊢
    omega
  · have lt := inside.lt
    exact Or.inl (Nat.lt_of_lt_of_le lt length)

/-! ### The scan over a body -/

section
variable {lead : UInt8}

/-- Whether a text ends behind a backslash. -/
def endsEscaped : (escaped : Bool) → Text → Bool
  | escaped, [] => escaped
  | true, _ :: text => endsEscaped false text
  | false, c :: text => endsEscaped (c = '\\') text

variable {escaped : Bool} {tail part : Text} {delim : Char}

/-- The bar found stands behind no backslash. -/
theorem endsEscaped_of_scanBar (plain : lead ≠ '\\'.toUInt8) {sections : Nat} {text seg : Text}
    (found : scanBar lead escaped sections text = some (seg, tail)) :
    endsEscaped escaped seg = false := by
  induction text generalizing escaped sections seg with
  | nil => cases escaped <;> cases sections <;> cases found
  | cons c text ih =>
      have step {escaped' : Bool} {sections' : Nat}
          (found' : ((scanBar lead escaped' sections' text).map fun parts => (c :: parts.1, parts.2)) =
            some (seg, tail)) : ∃ seg', seg = c :: seg' ∧ endsEscaped escaped' seg' = false := by
        obtain ⟨⟨seg', tail'⟩, inner, same⟩ := Option.map_eq_some_iff.1 found'
        cases same
        exact ⟨seg', rfl, ih inner⟩
      cases escaped with
      | true =>
          obtain ⟨seg', rfl, ends⟩ := step (by rwa [scanBar] at found)
          exact ends
      | false =>
          cases sections with
          | zero =>
              rw [scanBar] at found
              split at found
              · cases found
                rfl
              · obtain ⟨seg', rfl, ends⟩ := step found
                exact ends
          | succ sections =>
              rw [scanBar] at found
              split at found
              · next closes =>
                  obtain ⟨seg', rfl, ends⟩ := step found
                  have other : c ≠ '\\' := by
                    rintro rfl
                    exact plain closes.symm
                  rw [endsEscaped, decide_eq_false other]
                  exact ends
              · obtain ⟨seg', rfl, ends⟩ := step found
                exact ends

/-- A section ends at the latest where an unescaped delimiter stands. -/
theorem length_rawSection_of_endsEscaped (plain : delim ≠ '\\')
    (ends : endsEscaped escaped part = false) (more : Text) :
    (rawSection delim escaped (part ++ delim :: more)).length ≤ part.length := by
  induction part generalizing escaped with
  | nil =>
      cases escaped with
      | true => cases ends
      | false =>
          rw [List.nil_append, rawSection, if_neg plain, if_pos rfl]
  | cons c part ih =>
      cases escaped with
      | true => exact Nat.succ_le_succ (ih ends)
      | false =>
          rw [endsEscaped] at ends
          rw [List.cons_append, rawSection]
          split
          · next backslash =>
              rw [decide_eq_true backslash] at ends
              exact Nat.succ_le_succ (ih ends)
          · next other =>
              rw [decide_eq_false other] at ends
              split
              · exact Nat.zero_le _
              · exact Nat.succ_le_succ (ih ends)

/-- A section that ends before a text does, and the text behind its delimiter. -/
theorem endsEscaped_behind (ends : endsEscaped escaped part = false) (more : Text)
    (short : (rawSection delim escaped (part ++ more)).length + 1 ≤ part.length) :
    endsEscaped false (part.drop ((rawSection delim escaped (part ++ more)).length + 1)) = false := by
  induction part generalizing escaped with
  | nil => cases short
  | cons c part ih =>
      rw [List.cons_append] at short ⊢
      cases escaped with
      | true => exact ih ends (Nat.le_of_succ_le_succ short)
      | false =>
          rw [endsEscaped] at ends
          rw [rawSection] at short ⊢
          split at short
          · next backslash =>
              rw [decide_eq_true backslash] at ends
              rw [if_pos backslash]
              exact ih ends (Nat.le_of_succ_le_succ short)
          · next other =>
              rw [decide_eq_false other] at ends
              rw [if_neg other]
              split at short
              · next closes =>
                  rw [if_pos closes]
                  exact ends
              · next goes_on =>
                  rw [if_neg goes_on]
                  exact ih ends (Nat.le_of_succ_le_succ short)

/-- **A delimiter that stands behind no backslash lies in no section.** -/
theorem not_inSections_delim (plain : delim ≠ '\\') (ends : endsEscaped false part = false)
    (more : Text) : ¬ InSections delim (part ++ delim :: more) part := by
  have first := length_rawSection_of_endsEscaped plain ends more
  rintro (before | ⟨after, before⟩)
  · exact absurd before (Nat.not_lt.2 first)
  · have ends' := endsEscaped_behind ends (delim :: more) after
    have second := length_rawSection_of_endsEscaped plain ends' more
    rw [← List.drop_append_of_le_length after, List.length_drop] at second
    rw [behindSection] at before
    omega

/-- Where the scan reads the sections the dispatch reads, it finds no bar in them. -/
theorem scanBar_section (ascii : delim.toNat < 128) (plain : delim ≠ '\\') {sections : Nat}
    {body : Text}
    (found : scanBar (leadByte delim) escaped (sections + 1) body = some (part, tail)) :
    (rawSection delim escaped body).length + 1 ≤ part.length ∧
      scanBar (leadByte delim) false sections
        (body.drop ((rawSection delim escaped body).length + 1)) =
          some (part.drop ((rawSection delim escaped body).length + 1), tail) := by
  induction body generalizing escaped part with
  | nil => cases escaped <;> cases found
  | cons c body ih =>
      have step {escaped' : Bool} {sections' : Nat}
          (found' : ((scanBar (leadByte delim) escaped' sections' body).map
            fun parts => (c :: parts.1, parts.2)) = some (part, tail)) :
          ∃ seg, part = c :: seg ∧
            scanBar (leadByte delim) escaped' sections' body = some (seg, tail) := by
        obtain ⟨⟨seg, tail'⟩, scanned, same⟩ := Option.map_eq_some_iff.1 found'
        cases same
        exact ⟨seg, rfl, scanned⟩
      cases escaped with
      | true =>
          rw [scanBar] at found
          obtain ⟨seg, rfl, scanned⟩ := step found
          obtain ⟨length, rest⟩ := ih scanned
          exact ⟨Nat.succ_le_succ length, rest⟩
      | false =>
          rw [scanBar] at found
          simp only [leadByte_eq_iff ascii] at found
          rw [rawSection]
          split at found
          · next closes =>
              obtain ⟨seg, rfl, scanned⟩ := step found
              rw [if_neg (closes ▸ plain), if_pos closes]
              exact ⟨Nat.succ_pos _, scanned⟩
          · next goes_on =>
              obtain ⟨seg, rfl, scanned⟩ := step found
              obtain ⟨length, rest⟩ := ih scanned
              split
              · next backslash =>
                  rw [decide_eq_true backslash] at length rest
                  exact ⟨Nat.succ_le_succ length, rest⟩
              · next other =>
                  rw [decide_eq_false other] at length rest
                  exact ⟨Nat.succ_le_succ length, rest⟩

theorem not_inSections_scan (ascii : delim.toNat < 128) (plain : delim ≠ '\\') {body : Text}
    (found : scanBar (leadByte delim) false 2 body = some (part, tail)) :
    ¬ InSections delim body part := by
  obtain ⟨first, rest⟩ := scanBar_section ascii plain found
  obtain ⟨second, -⟩ := scanBar_section ascii plain rest
  rw [List.length_drop] at second
  simp only [InSections, behindSection]
  omega

/-- A text without bars and backslashes is passed over. -/
theorem scanBar_append (lead : UInt8) {mid : Text} (clean : Clean mid) (sections : Nat)
    (text : Text) :
    ∃ left, left ≤ sections ∧ scanBar lead false sections (mid ++ text) =
      (scanBar lead false left text).map fun parts => (mid ++ parts.1, parts.2) := by
  induction mid generalizing sections with
  | nil => exact ⟨sections, Nat.le_refl _, (Option.map_id' ..).symm⟩
  | cons c mid ih =>
      rw [Clean, List.forall_mem_cons] at clean
      obtain ⟨⟨bar, backslash⟩, clean⟩ := clean
      have step (left : Nat) : ((scanBar lead false left text).map
          fun parts => (mid ++ parts.1, parts.2)).map (fun parts => (c :: parts.1, parts.2)) =
            (scanBar lead false left text).map fun parts => (c :: mid ++ parts.1, parts.2) := by
        rw [Option.map_map]
        rfl
      cases sections with
      | zero =>
          obtain ⟨left, few, same⟩ := ih clean 0
          refine ⟨left, few, ?_⟩
          rw [List.cons_append, scanBar, if_neg bar, decide_eq_false backslash, same, step]
      | succ sections =>
          rw [List.cons_append, scanBar]
          split
          · obtain ⟨left, few, same⟩ := ih clean sections
            exact ⟨left, Nat.le_succ_of_le few, by rw [same, step]⟩
          · obtain ⟨left, few, same⟩ := ih clean (sections + 1)
            exact ⟨left, few, by rw [decide_eq_false backslash, same, step]⟩

end

/-! ### The command's name and its argument -/

/-- What holds of the fronts of `substitute` holds of its spellings. -/
theorem forall_substitute {p : Text → Prop}
    (all : ∀ n < 11, 0 < n → p ("substitute".toList.take n))
    (spelled : isSubstituteName name = true) : p name := by
  simp only [isSubstituteName, exNameMatches, Bool.and_eq_true, decide_eq_true_eq,
    List.isPrefixOf_iff_prefix] at spelled
  obtain ⟨some_name, front⟩ := spelled
  have length : name.length ≤ 10 := front.length_le
  rw [List.prefix_iff_eq_take.1 front]
  exact all name.length (Nat.lt_succ_of_le length) some_name

/-- What the splitter and the dispatch ask of a substitute's name. -/
structure SubstituteName (name : Text) : Prop where
  letters : ∀ c ∈ name, c.isAlpha = true
  first : name.head? = some 's'
  takes : exTakesBar name = false
  sections : exPatternSections name = 2
  canonical : canonicalOrSelf name = "substitute".toList

theorem substituteName (spelled : isSubstituteName name = true) : SubstituteName name := by
  have asked : name.all Char.isAlpha = true ∧ name.head? = some 's' ∧ exTakesBar name = false ∧
      exPatternSections name = 2 ∧ canonicalOrSelf name = "substitute".toList :=
    forall_substitute (p := fun name => name.all Char.isAlpha = true ∧ name.head? = some 's' ∧
      exTakesBar name = false ∧ exPatternSections name = 2 ∧
      canonicalOrSelf name = "substitute".toList) (by decide +kernel) spelled
  obtain ⟨letters, first, takes, sections, canonical⟩ := asked
  exact ⟨List.all_eq_true.1 letters, first, takes, sections, canonical⟩

/-- A front all of whose elements hold, before one that does not. -/
theorem span_append {α : Type} {p : α → Bool} {front : List α} {b : α}
    (all : ∀ a ∈ front, p a = true) (stop : p b = false) (rest : List α) :
    (front ++ b :: rest).takeWhile p = front ∧ (front ++ b :: rest).dropWhile p = b :: rest := by
  have stops := Bool.eq_false_iff.1 stop
  rw [List.takeWhile_append_of_pos all, List.dropWhile_append_of_pos all,
    List.takeWhile_cons_of_neg stops, List.dropWhile_cons_of_neg stops]
  exact ⟨List.append_nil _, rfl⟩

theorem takeWhile_letters {args : Text} (letters : ∀ c ∈ name, c.isAlpha = true)
    (stops : Stops Char.isAlpha args) :
    (name ++ args).takeWhile Char.isAlpha = name ∧ (name ++ args).dropWhile Char.isAlpha = args := by
  cases args with
  | nil => simp [List.takeWhile_eq_self_iff.2 letters, List.dropWhile_eq_nil_iff.2 letters]
  | cons c args => exact span_append letters (stops c rfl) args

theorem opensNothing_ascii (ascii : c.toNat < 128) :
    opensNothing (leadByte c) = (c.isAlphanum || c == '\\' || c == '"' || c == '|') := by
  rw [leadByte_ascii ascii]
  revert ascii
  refine forall_ascii (p := fun c => opensNothing (UInt8.ofNat c.toNat) =
    (c.isAlphanum || c == '\\' || c == '"' || c == '|')) ?_
  decide +kernel

theorem opensNothing_wide (wide : 128 ≤ c.toNat) : opensNothing (leadByte c) = false := by
  have codes : ∀ n < 256, 128 ≤ n → opensNothing (UInt8.ofNat n) = false := by decide +kernel
  have high : 128 ≤ (leadByte c).toNat := by
    rw [← Nat.not_lt, leadByte_lt_iff]
    exact Nat.not_lt.2 wide
  have here := codes _ (leadByte c).toNat_lt high
  rwa [UInt8.ofNat_toNat] at here

theorem opensNothing_white (white : isWhitespace c = true) :
    opensNothing (leadByte c) = false := by
  rcases Nat.lt_or_ge c.toNat 128 with small | wide
  · have codes : ∀ n < 128, isWhitespace (Char.ofNat n) = true →
        ((Char.ofNat n).isAlphanum || Char.ofNat n == '\\' || Char.ofNat n == '"' ||
          Char.ofNat n == '|') = false := by decide +kernel
    have here := codes c.toNat small
    rw [Char.ofNat_toNat] at here
    rw [opensNothing_ascii small, here white]
  · exact opensNothing_wide wide

/-- No character starts with a continuation byte. -/
theorem not_continues_leadByte (c : Char) : ¬ Continues (leadByte c) := by
  rintro ⟨high, low⟩
  rcases Nat.lt_or_ge c.toNat 128 with small | wide
  · rw [toNat_leadByte_ascii small] at high
    omega
  · obtain ⟨conts, encoded⟩ := encode_wide wide
    have lead := encoded.lead
    omega

theorem sectionBytes_append {lead : UInt8} {conts : List UInt8} (high : ∀ b ∈ conts, Continues b)
    (apart : ¬ Continues lead) (sections : Nat) (rest : List UInt8) :
    sectionBytes lead false (sections + 1) (conts ++ rest) =
      sectionBytes lead false (sections + 1) rest + conts.length := by
  induction conts with
  | nil => rfl
  | cons b conts ih =>
      rw [List.forall_mem_cons] at high
      have other : b ≠ lead := by
        rintro rfl
        exact apart high.1
      have plain : b ≠ '\\'.toUInt8 := ne_of_high high.1.1 (by decide)
      rw [List.cons_append, sectionBytes, if_neg other, decide_eq_false plain, ih high.2,
        List.length_cons, Nat.add_assoc]

/-- **Where the sections end**: two delimiters behind the first character that is no blank. -/
theorem patternSectionsEnd_eq {blanks : Text} {d : Char} (blank : ∀ c ∈ blanks, isBlank c = true)
    (other : isBlank d = false) (text : Text) :
    patternSectionsEnd (bytes (blanks ++ d :: text)) 2 =
      if opensNothing (leadByte d) then size blanks
      else size (blanks ++ [d]) + sectionBytes (leadByte d) false 2 (bytes text) := by
  have blank_byte {c : Char} :
      (leadByte c == ' '.toUInt8 || leadByte c == '\t'.toUInt8) = isBlank c := by
    rw [isBlank, Bool.eq_iff_iff]
    simp only [Bool.or_eq_true, beq_iff_eq, leadByte_eq_toUInt8 (d := ' ') (by decide),
      leadByte_eq_toUInt8 (d := '\t') (by decide)]
  have all : ∀ b ∈ bytes blanks, (b == ' '.toUInt8 || b == '\t'.toUInt8) = true := by
    intro b member
    obtain ⟨c, inside, encoded⟩ := List.mem_flatMap.1 member
    have ascii := ascii_of_isAddressChar (isAddressChar_of_isBlank (blank c inside))
    rw [encode_ascii ascii, ← leadByte_ascii ascii, List.mem_singleton] at encoded
    rw [encoded, blank_byte, blank c inside]
  obtain ⟨conts, whole, width, high⟩ : ∃ conts, bytes (d :: text) =
      leadByte d :: (conts ++ bytes text) ∧ d.utf8Size = conts.length + 1 ∧
        ∀ b ∈ conts, Continues b := by
    rcases Nat.lt_or_ge d.toNat 128 with small | wide
    · exact ⟨[], bytes_cons_ascii small text, utf8Size_ascii small, by simp⟩
    · obtain ⟨conts, encoded, whole, width⟩ := bytes_cons_wide wide text
      exact ⟨conts, whole, width, encoded.conts⟩
  have stop : (leadByte d == ' '.toUInt8 || leadByte d == '\t'.toUInt8) = false := by
    rw [blank_byte, other]
  obtain ⟨taken, dropped⟩ := span_append
    (p := fun b : UInt8 => b == ' '.toUInt8 || b == '\t'.toUInt8) all stop (conts ++ bytes text)
  have passed : sectionBytes (leadByte d) false 2 (conts ++ bytes text) =
      sectionBytes (leadByte d) false 2 (bytes text) + conts.length :=
    sectionBytes_append high (not_continues_leadByte d) 1 _
  rw [patternSectionsEnd, bytes_append, whole]
  simp only [taken, dropped, length_bytes, passed]
  split
  · rfl
  · rw [size_append, size_cons, size_nil, width]
    omega

/-- **The cut of a line whose name the splitter finds.** -/
theorem splitExBar_substitute {blanks : Text} {d : Char} {text : Text}
    (whole : addresses .between (front ++ (name ++ (blanks ++ d :: text))) = some front)
    (spelled : SubstituteName name) (stops : Stops Char.isAlpha (blanks ++ d :: text))
    (blank : ∀ c ∈ blanks, isBlank c = true) (other : isBlank d = false) :
    splitExBar (front ++ (name ++ (blanks ++ d :: text))) =
      if opensNothing (leadByte d) then
        some ((scanBar 0 false 0 (d :: text)).map fun parts =>
          (front ++ (name ++ blanks) ++ parts.1, parts.2))
      else
        some ((scanBar (leadByte d) false 2 text).map fun parts =>
          (front ++ (name ++ (blanks ++ [d])) ++ parts.1, parts.2)) := by
  obtain ⟨taken, dropped⟩ := takeWhile_letters spelled.letters stops
  have head : (name ++ (blanks ++ d :: text)).head? = some 's' := by
    rw [List.head?_append, spelled.first]
    rfl
  rw [(splitExBar_eq whole).2, head, taken, dropped, spelled.takes, scanStart, spelled.sections,
    patternSectionsEnd_eq blank other]
  simp only [Option.some.injEq]
  rw [if_neg (by decide), if_neg Bool.false_ne_true, if_pos Nat.zero_lt_two]
  split
  · have cutHere := cutAtBar_eq 0 (by rintro ⟨high, -⟩; cases high) 0
      (front ++ (name ++ blanks)) (d :: text)
    rw [sectionBytes, Nat.add_zero] at cutHere
    simpa only [size_append, List.append_assoc, Nat.add_assoc] using cutHere
  · have cutHere := cutAtBar_eq (leadByte d) (not_continues_leadByte d) 2 (front ++ (name ++ (blanks ++ [d]))) text
    simpa only [size_append, List.append_assoc, Nat.add_assoc, List.singleton_append] using cutHere

end Bemtvi.Core.ExLine
