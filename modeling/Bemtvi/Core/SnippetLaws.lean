/-
Module: Bemtvi.Core.SnippetLaws
Purpose: A snippet body of characters is parsed without a panic, and what is laid out of any tree is well
  formed but for the place of `$0` behind the greatest number.
Trusted boundary: kernel-checked laws of the snippets
Main exports: parseTree_safe, occurrences, layout_eq, WellFormed, snippet_well_formed_iff
-/
import Bemtvi.Core.Snippet

namespace Bemtvi.Core.Snippet

open Utf8

/-! ### Outcomes -/

/-- No panic, and what is given is as said. -/
def Outcome.Safe {α : Type} (P : α → Prop) : Outcome α → Prop
  | .ok value => P value
  | .error _ => True
  | .panicked => False

variable {α : Type} {P : α → Prop} {outcome : Outcome α} {rest : List UInt8} {key index : UInt32}
  {defaults : Defaults} {nodes : Nodes}

theorem Outcome.Safe.bind {β : Type} {Q : β → Prop} {next : α → Outcome β} (safe : outcome.Safe P)
    (after : ∀ value, P value → (next value).Safe Q) : (outcome.bind next).Safe Q := by
  cases outcome with
  | ok value => exact after value safe
  | error what => trivial
  | panicked => exact safe.elim

theorem Outcome.Safe.map {β : Type} {Q : β → Prop} {f : α → β} (safe : outcome.Safe P)
    (after : ∀ value, P value → Q (f value)) : (outcome.map f).Safe Q :=
  safe.bind after

/-! ### Bytes of characters -/

theorem leadByte_byteOf {c : Char} (ascii : c.toNat < 128) : leadByte c = byteOf c :=
  leadByte_ascii ascii

/-- The first byte of a text, and what is left behind it when it is a whole character. -/
theorem bytes_first (c : Char) (text : Text) :
    ∃ rest, bytes (c :: text) = leadByte c :: rest ∧
      ((leadByte c).toNat < 128 → c.toNat < 128 ∧ rest = bytes text) := by
  rcases Nat.lt_or_ge c.toNat 128 with ascii | wide
  · use bytes text
    constructor
    · rw [bytes_cons, encode_ascii ascii, leadByte_byteOf ascii]
      rfl
    · exact fun _ => ⟨ascii, rfl⟩
  · obtain ⟨conts, encoded⟩ := encode_wide wide
    use conts ++ bytes text
    constructor
    · rw [bytes_cons, encoded.encoded]
      rfl
    · intro small
      have := encoded.lead
      omega

theorem utf8Len_eq (b : UInt8) : utf8Len b =
    if b.toNat ≤ 127 then 1 else if 192 ≤ b.toNat ∧ b.toNat ≤ 223 then 2
    else if 224 ≤ b.toNat ∧ b.toNat ≤ 239 then 3 else 4 := by
  simp only [utf8Len, UInt8.le_iff_toNat_le]
  rfl

theorem utf8Len_leadByte (c : Char) : utf8Len (leadByte c) = c.utf8Size := by
  rw [utf8Len_eq]
  rcases Nat.lt_or_ge c.toNat 128 with ascii | wide
  · rw [utf8Size_ascii ascii, toNat_leadByte_ascii ascii, if_pos (Nat.le_of_lt_succ ascii)]
  · have size_eq : c.utf8Size = if c.toNat ≤ 127 then 1 else if c.toNat ≤ 0x7ff then 2
        else if c.toNat ≤ 0xffff then 3 else 4 := by
      simp only [Char.utf8Size, UInt32.le_iff_toNat_le]
      rfl
    rw [size_eq, if_neg (by omega : ¬ c.toNat ≤ 127), leadByte_wide wide, UInt8.toNat_ofNat']
    by_cases two : c.toNat ≤ 0x7ff
    · simp only [if_pos two]
      rw [if_neg (by omega), if_pos (by omega)]
    · by_cases three : c.toNat ≤ 0xffff
      · simp only [if_neg two, if_pos three]
        rw [if_neg (by omega), if_neg (by omega), if_pos (by omega)]
      · simp only [if_neg two, if_neg three]
        rw [if_neg (by omega), if_neg (by omega), if_neg (by omega)]

theorem fromUtf8_char (c : Char) : fromUtf8 (String.utf8EncodeChar c) = some [c] := by
  have decoded := List.utf8Decode?_utf8Encode (l := [c])
  simp only [List.utf8Encode, List.flatMap_cons, List.flatMap_nil, List.append_nil] at decoded
  rw [fromUtf8, decoded]
  rfl

/-- A character is sliced whole. -/
theorem sliceChar_char (c : Char) (text : Text) :
    sliceChar (leadByte c) (bytes (c :: text)) = some [c] ∧
      (bytes (c :: text)).drop (utf8Len (leadByte c)) = bytes text := by
  have length_eq : utf8Len (leadByte c) = (String.utf8EncodeChar c).length := by
    rw [utf8Len_leadByte, String.length_utf8EncodeChar]
  rw [bytes_cons, length_eq]
  constructor
  · rw [sliceChar, length_eq, if_pos, List.take_left, fromUtf8_char]
    rw [List.length_append]
    exact Nat.le_add_right _ _
  · exact List.drop_left

/-- Bytes of a text no longer than another. -/
def Left (text : Text) (rest : List UInt8) : Prop :=
  ∃ left, rest = bytes left ∧ size left ≤ size text

theorem Left.trans {text left : Text} (some_left : Left left rest) (le : size left ≤ size text) :
    Left text rest := by
  obtain ⟨left', rfl, le'⟩ := some_left
  exact ⟨left', rfl, le'.trans le⟩

theorem left_tail (c : Char) (text : Text) : Left (c :: text) (bytes text) :=
  ⟨text, rfl, by rw [size_cons]; exact Nat.le_add_left _ _⟩

/-- A first byte below 128 is a whole character. -/
theorem first_ascii {text : Text} {b : UInt8} (first : bytes text = b :: rest)
    (ascii : b.toNat < 128) :
    ∃ c left, text = c :: left ∧ c.toNat < 128 ∧ b = byteOf c ∧ rest = bytes left := by
  rcases text with _ | ⟨c, left⟩
  · cases first
  · obtain ⟨rest', whole, whole_char⟩ := bytes_first c left
    rw [whole] at first
    cases first
    obtain ⟨small, rfl⟩ := whole_char ascii
    exact ⟨c, left, rfl, small, leadByte_byteOf small, rfl⟩

theorem isAsciiDigit_lt {b : UInt8} (digit : isAsciiDigit b = true) : b.toNat < 128 := by
  simp only [isAsciiDigit, Bool.and_eq_true, decide_eq_true_eq] at digit
  have := UInt8.le_iff_toNat_le.1 digit.2
  have nine : (byteOf '9').toNat = 57 := rfl
  omega

theorem left_dropWhile (text : Text) : Left text ((bytes text).dropWhile isAsciiDigit) := by
  induction text with
  | nil => exact ⟨[], rfl, Nat.le_refl _⟩
  | cons c text ih =>
      rcases whole : bytes (c :: text) with _ | ⟨b, rest⟩
      · exact ⟨[], rfl, Nat.zero_le _⟩
      · rw [List.dropWhile_cons]
        split
        · next digit =>
          obtain ⟨c', left, same, -, -, rfl⟩ := first_ascii whole (isAsciiDigit_lt digit)
          cases same
          exact ih.trans (by rw [size_cons]; exact Nat.le_add_left _ _)
        · exact ⟨c :: text, whole.symm, Nat.le_refl _⟩

/-! ### Parsing without a panic -/

theorem left_parseInt (text : Text) : Left text (parseInt (bytes text)).2 := left_dropWhile text

theorem expectClose_safe (text : Text) : (expectClose (bytes text)).Safe (Left text) := by
  rcases whole : bytes text with _ | ⟨b, rest⟩
  · trivial
  · rw [expectClose]
    split
    · next closing =>
      obtain ⟨c, left, rfl, -, -, rfl⟩ := first_ascii whole (by rw [closing]; decide)
      exact left_tail c left
    · trivial

theorem expectClose_left {text : Text} (some_left : Left text rest) :
    (expectClose rest).Safe (Left text) := by
  obtain ⟨left, rfl, le⟩ := some_left
  have safe := expectClose_safe left
  cases closed : expectClose (bytes left) with
  | ok after =>
      rw [closed] at safe
      exact Left.trans safe le
  | error what => trivial
  | panicked =>
      rw [closed] at safe
      exact safe.elim

/-- What is left behind an escaped character. -/
theorem left_escaped {text : Text} (some_left : bytes text ≠ [])
    (small : ((bytes text).headD 0).toNat < 128) :
    ∃ left, (bytes text).tail = bytes left ∧ size left < size text := by
  obtain ⟨b, rest, whole⟩ := List.exists_cons_of_ne_nil some_left
  rw [whole, List.headD_cons] at small
  obtain ⟨c, left, rfl, -, -, rfl⟩ := first_ascii whole small
  rw [whole]
  refine ⟨left, rfl, ?_⟩
  have := c.utf8Size_pos
  rw [size_cons]
  omega

/-- What a call leaves of a rest is left of the whole. -/
theorem Outcome.Safe.left {outcome : Outcome (α × List UInt8)} {left text : Text}
    (safe : outcome.Safe fun given => Left left given.2) (le : size left ≤ size text) :
    outcome.Safe fun given => Left text given.2 := by
  cases outcome with
  | ok given => exact Left.trans safe le
  | error what => trivial
  | panicked => exact safe.elim

theorem parseChoices_safe (steps : Nat) (choices : List Text) (cur : Text) {text : Text}
    (enough : size text < steps) :
    (parseChoices steps choices cur (bytes text)).Safe fun given => Left text given.2 := by
  induction steps generalizing choices cur text with
  | zero => omega
  | succ steps ih =>
      rcases text with _ | ⟨c, text⟩
      · trivial
      · have positive := c.utf8Size_pos
        rw [size_cons] at enough
        have onward (choices : List Text) (cur : Text) {left : Text} (le : size left ≤ size text) :
            (parseChoices steps choices cur (bytes left)).Safe
              fun given => Left (c :: text) given.2 :=
          (ih choices cur (by omega)).left (by rw [size_cons]; omega)
        obtain ⟨sliced, dropped⟩ := sliceChar_char c text
        obtain ⟨rest, whole, ascii⟩ := bytes_first c text
        rw [whole] at sliced dropped
        rw [whole, parseChoices]
        split
        · next escape =>
          obtain ⟨-, rfl⟩ := ascii (by rw [escape.1]; decide)
          dsimp only
          split
          · next escaped =>
            obtain ⟨left, tail_eq, lt⟩ := left_escaped escape.2 (by
              rcases escaped with same | same | same <;> rw [same] <;> decide)
            rw [tail_eq]
            exact onward _ _ (Nat.le_of_lt lt)
          · exact onward _ _ (Nat.le_refl _)
        · split
          · next comma =>
            obtain ⟨-, rfl⟩ := ascii (by rw [comma]; decide)
            exact onward _ _ (Nat.le_refl _)
          · split
            · next bar =>
              obtain ⟨-, rfl⟩ := ascii (by rw [bar]; decide)
              exact (expectClose_left (left_tail c text)).map fun _ some_left => some_left
            · rw [sliced, dropped]
              exact onward _ _ (Nat.le_refl _)

/-- What is read between braces. -/
theorem parseBraced_safe {nodes : List UInt8 → Outcome (Nodes × List UInt8)} {text : Text}
    (safe : ∀ left, size left ≤ size text →
      (nodes (bytes left)).Safe fun given => Left left given.2) :
    (parseBraced nodes (bytes text)).Safe fun given => Left text given.2 := by
  rw [parseBraced]
  split
  · obtain ⟨left, left_eq, le⟩ := left_parseInt text
    rcases parsed : parseInt (bytes text) with ⟨index, rest⟩
    rw [parsed] at left_eq
    simp only at left_eq ⊢
    subst left_eq
    rcases whole : bytes left with _ | ⟨b, rest⟩
    · trivial
    · have inside (small : b.toNat < 128) : ∃ c left', left = c :: left' ∧ rest = bytes left' := by
        obtain ⟨c, left', same, -, -, rest_eq⟩ := first_ascii whole small
        exact ⟨c, left', same, rest_eq⟩
      simp only
      split
      · next closing =>
        obtain ⟨c, left', rfl, rfl⟩ := inside (by rw [closing]; decide)
        exact Left.trans (left_tail c left') le
      · split
        · next colon =>
          obtain ⟨c, left', rfl, rfl⟩ := inside (by rw [colon]; decide)
          rw [size_cons] at le
          apply (safe left' (by omega)).bind
          intro given some_left
          apply (expectClose_left some_left).map
          intro rest some_left
          exact Left.trans some_left (by omega)
        · split
          · next bar =>
            obtain ⟨c, left', rfl, rfl⟩ := inside (by rw [bar]; decide)
            rw [size_cons] at le
            apply (parseChoices_safe _ [] [] (by rw [length_bytes]; omega)).map
            intro given some_left
            exact Left.trans some_left (by omega)
          · split
            · trivial
            · trivial
  · trivial

theorem parseDollar_safe {nodes : List UInt8 → Outcome (Nodes × List UInt8)} {text : Text}
    (safe : ∀ left, size left ≤ size text →
      (nodes (bytes left)).Safe fun given => Left left given.2) :
    (parseDollar nodes (bytes text)).Safe fun given => Left text given.2 := by
  rcases whole : bytes text with _ | ⟨b, rest⟩
  · trivial
  · rw [parseDollar]
    split
    · next brace =>
      obtain ⟨c, left, rfl, -, -, rfl⟩ := first_ascii whole (by rw [brace]; decide)
      have le : size left ≤ size (c :: left) := by
        rw [size_cons]
        omega
      exact (parseBraced_safe fun left' le' => safe left' (le'.trans le)).left le
    · split
      · rw [← whole]
        exact left_parseInt text
      · trivial

/-- With a step for every byte and one more, nodes are read without a panic. -/
theorem parseNodes_safe (steps : Nat) (inBrace : Bool) (lit : Text) {text : Text}
    (enough : size text < steps) :
    (parseNodes steps inBrace lit (bytes text)).Safe fun given => Left text given.2 := by
  induction steps generalizing inBrace lit text with
  | zero => omega
  | succ steps ih =>
      rcases text with _ | ⟨c, text⟩
      · exact ⟨[], rfl, Nat.le_refl _⟩
      · have positive := c.utf8Size_pos
        rw [size_cons] at enough
        have onward (inBrace : Bool) (lit : Text) {left : Text} (le : size left ≤ size text) :
            (parseNodes steps inBrace lit (bytes left)).Safe
              fun given => Left (c :: text) given.2 :=
          (ih inBrace lit (by omega)).left (by rw [size_cons]; omega)
        obtain ⟨sliced, dropped⟩ := sliceChar_char c text
        obtain ⟨rest, whole, ascii⟩ := bytes_first c text
        rw [whole] at sliced dropped
        rw [whole, parseNodes]
        split
        · exact ⟨c :: text, whole.symm, Nat.le_refl _⟩
        · split
          · next escape =>
            obtain ⟨-, rfl⟩ := ascii (by rw [escape.1]; decide)
            dsimp only
            split
            · next escaped =>
              obtain ⟨left, tail_eq, lt⟩ := left_escaped escape.2 (by
                rcases escaped with same | same | same <;> rw [same] <;> decide)
              rw [tail_eq]
              exact onward _ _ (Nat.le_of_lt lt)
            · exact onward _ _ (Nat.le_refl _)
          · split
            · next dollar =>
              obtain ⟨-, rfl⟩ := ascii (by rw [dollar]; decide)
              have nested : ∀ left, size left ≤ size text →
                  (parseNodes steps true [] (bytes left)).Safe fun given => Left left given.2 :=
                fun left le => ih true [] (by omega)
              apply (parseDollar_safe nested).bind
              rintro ⟨stop, rest⟩ ⟨left, rfl, le⟩
              exact (onward inBrace [] le).map fun _ some_left => some_left
            · rw [sliced, dropped]
              exact onward _ _ (Nat.le_refl _)

/-- No body of characters makes the parser panic. -/
theorem parseTree_safe (src : Text) : (parseTree (bytes src)).Safe fun _ => True := by
  apply (parseNodes_safe _ false [] (by rw [length_bytes]; omega)).bind
  rintro ⟨nodes, rest⟩ -
  dsimp only
  split
  · trivial
  · trivial

/-! ### What is laid out -/

/-- The text that a tabstop is laid out as. -/
def ownText (defaults : Defaults) (index : UInt32) (body : Nodes) (choices : List Text) : Text :=
  match choices with
  | first :: _ => first
  | [] => if body = Nodes.nil then (defaults index).getD [] else renderDefault defaults body

/-- A tabstop where it is laid out. -/
structure Occurrence where
  index : UInt32
  span : Span
  text : Text

/-- Every tabstop that is laid out from a byte on, an inner one before the one around it. -/
def occurrences (defaults : Defaults) : Nat → Nodes → List Occurrence
  | _, .nil => []
  | base, .text literal rest => occurrences defaults (base + size literal) rest
  | base, .stop index body choices rest =>
      let own := ownText defaults index body choices
      (if choices = [] then occurrences defaults base body else []) ++
        ⟨index, (base, base + size own), own⟩ :: occurrences defaults (base + size own) rest

/-- The numbers of the tabstops that are laid out. -/
def Nodes.numbers : Nodes → List UInt32
  | .nil => []
  | .text _ rest => rest.numbers
  | .stop index body choices rest =>
      (if choices = [] then body.numbers else []) ++ index :: rest.numbers

/-- Every occurrence's span under its number. -/
def pushAll (spans : List (UInt32 × List Span)) (found : List Occurrence) :
    List (UInt32 × List Span) :=
  found.foldl (fun spans occurrence => pushSpan spans occurrence.index occurrence.span) spans

theorem renderDefault_stop (defaults : Defaults) (index : UInt32) (body : Nodes)
    (choices : List Text) (rest : Nodes) :
    renderDefault defaults (.stop index body choices rest) =
      ownText defaults index body choices ++ renderDefault defaults rest := rfl

/-- The layout is the text of the nodes and the spans of their occurrences. -/
theorem layout_eq (defaults : Defaults) (nodes : Nodes) (out : Layout) :
    (layout defaults nodes out).text = out.text ++ renderDefault defaults nodes ∧
      (layout defaults nodes out).spans =
        pushAll out.spans (occurrences defaults (size out.text) nodes) := by
  induction nodes generalizing out with
  | nil => exact ⟨(List.append_nil _).symm, rfl⟩
  | text literal rest ih =>
      obtain ⟨text_eq, spans_eq⟩ := ih { out with text := out.text ++ literal }
      constructor
      · rw [layout, text_eq, renderDefault, List.append_assoc]
      · rw [layout, spans_eq, occurrences, size_append]
  | stop index body choices rest ih_body ih =>
      have step (own : Layout) (own_text : own.text = out.text ++ ownText defaults index body choices)
          (own_spans : own.spans = pushAll out.spans
            (if choices = [] then occurrences defaults (size out.text) body else [])) :
          (layout defaults rest { own with
            spans := pushSpan own.spans index (size out.text, size own.text) }).text =
              out.text ++ renderDefault defaults (.stop index body choices rest) ∧
          (layout defaults rest { own with
            spans := pushSpan own.spans index (size out.text, size own.text) }).spans =
              pushAll out.spans
                (occurrences defaults (size out.text) (.stop index body choices rest)) := by
        obtain ⟨text_eq, spans_eq⟩ := ih { own with
          spans := pushSpan own.spans index (size out.text, size own.text) }
        constructor
        · rw [text_eq, own_text, renderDefault_stop, List.append_assoc]
        · rw [spans_eq, own_spans, own_text, size_append, occurrences, pushAll, pushAll, pushAll,
            List.foldl_append]
          rfl
      cases choices with
      | cons first more => exact step _ rfl rfl
      | nil =>
          by_cases empty : body = Nodes.nil
          · subst empty
            exact step _ rfl rfl
          · have own_text : ownText defaults index body [] = renderDefault defaults body :=
              if_neg empty
            have laid := ih_body out
            rw [← own_text] at laid
            have placed := step _ laid.1 laid.2
            simp only [layout, if_neg empty]
            exact placed

/-! ### Spans under their numbers -/

/-- A span is listed under a number. -/
def Listed (map : List (UInt32 × List Span)) (key : UInt32) (span : Span) : Prop :=
  ∃ spans, (key, spans) ∈ map ∧ span ∈ spans

theorem listed_nil (key : UInt32) (span : Span) : ¬ Listed [] key span := by
  rintro ⟨spans, member, _⟩
  cases member

theorem listed_cons {first : UInt32} {spans : List Span} {map : List (UInt32 × List Span)}
    {span : Span} :
    Listed ((first, spans) :: map) key span ↔ (key = first ∧ span ∈ spans) ∨ Listed map key span := by
  constructor
  · rintro ⟨spans', member, listed⟩
    rcases List.mem_cons.1 member with same | member
    · cases same
      exact .inl ⟨rfl, listed⟩
    · exact .inr ⟨spans', member, listed⟩
  · rintro (⟨rfl, listed⟩ | ⟨spans', member, listed⟩)
    · exact ⟨spans, List.mem_cons_self, listed⟩
    · exact ⟨spans', List.mem_cons_of_mem _ member, listed⟩

theorem listed_pushSpan {map : List (UInt32 × List Span)} {span other : Span} :
    Listed (pushSpan map index span) key other ↔
      Listed map key other ∨ key = index ∧ other = span := by
  induction map with
  | nil => simp [pushSpan, listed_cons, listed_nil]
  | cons entry map ih =>
      obtain ⟨first, spans⟩ := entry
      rw [pushSpan]
      split
      · simp only [listed_cons, List.mem_singleton]
        tauto
      · split
        · next same =>
          subst same
          simp only [listed_cons, List.mem_append, List.mem_singleton]
          tauto
        · simp only [listed_cons, ih]
          tauto

theorem keys_pushSpan {map : List (UInt32 × List Span)} {span : Span} :
    key ∈ (pushSpan map index span).map Prod.fst ↔ key ∈ map.map Prod.fst ∨ key = index := by
  induction map with
  | nil => simp [pushSpan]
  | cons entry map ih =>
      obtain ⟨first, spans⟩ := entry
      rw [pushSpan]
      split
      · simp only [List.map_cons, List.mem_cons]
        tauto
      · split
        · next same =>
          subst same
          simp only [List.map_cons, List.mem_cons]
          tauto
        · simp only [List.map_cons, List.mem_cons, ih]
          tauto

theorem sorted_pushSpan {map : List (UInt32 × List Span)} (index : UInt32) (span : Span)
    (sorted : (map.map Prod.fst).Pairwise (· < ·)) :
    ((pushSpan map index span).map Prod.fst).Pairwise (· < ·) := by
  induction map with
  | nil => simp [pushSpan]
  | cons entry map ih =>
      obtain ⟨first, spans⟩ := entry
      obtain ⟨above, sorted_rest⟩ := List.pairwise_cons.1 sorted
      rw [pushSpan]
      split
      · next lt =>
        apply List.pairwise_cons.2
        constructor
        · intro key member
          rcases List.mem_cons.1 member with rfl | member
          · exact lt
          · exact UInt32.lt_trans lt (above key member)
        · exact sorted
      · split
        · exact sorted
        · next not_lt not_same =>
          apply List.pairwise_cons.2
          constructor
          · intro key member
            rcases keys_pushSpan.1 member with member | rfl
            · exact above key member
            · exact UInt32.lt_of_le_of_ne (UInt32.not_lt.1 not_lt) (Ne.symm not_same)
          · exact ih sorted_rest

theorem listed_pushAll {map : List (UInt32 × List Span)} {found : List Occurrence} {other : Span} :
    Listed (pushAll map found) key other ↔ Listed map key other ∨
      ∃ occurrence ∈ found, occurrence.index = key ∧ occurrence.span = other := by
  induction found generalizing map with
  | nil => simp [pushAll]
  | cons occurrence found ih =>
      have unfolded : pushAll map (occurrence :: found) =
          pushAll (pushSpan map occurrence.index occurrence.span) found := rfl
      rw [unfolded, ih, listed_pushSpan]
      simp only [List.exists_mem_cons_iff]
      constructor
      · rintro ((old | ⟨rfl, rfl⟩) | later)
        · exact .inl old
        · exact .inr (.inl ⟨rfl, rfl⟩)
        · exact .inr (.inr later)
      · rintro (old | ⟨rfl, rfl⟩ | later)
        · exact .inl (.inl old)
        · exact .inl (.inr ⟨rfl, rfl⟩)
        · exact .inr later

theorem keys_pushAll {map : List (UInt32 × List Span)} {found : List Occurrence} :
    key ∈ (pushAll map found).map Prod.fst ↔
      key ∈ map.map Prod.fst ∨ key ∈ found.map Occurrence.index := by
  induction found generalizing map with
  | nil => simp [pushAll]
  | cons occurrence found ih =>
      have unfolded : pushAll map (occurrence :: found) =
          pushAll (pushSpan map occurrence.index occurrence.span) found := rfl
      rw [unfolded, ih, keys_pushSpan, List.map_cons, List.mem_cons, or_assoc]

theorem sorted_pushAll {map : List (UInt32 × List Span)} (found : List Occurrence)
    (sorted : (map.map Prod.fst).Pairwise (· < ·)) :
    ((pushAll map found).map Prod.fst).Pairwise (· < ·) := by
  induction found generalizing map with
  | nil => exact sorted
  | cons occurrence found ih => exact ih (sorted_pushSpan _ _ sorted)

/-! ### Where spans lie -/

/-- A span of a text is the places of a piece of it. -/
def Covers (text : Text) (span : Span) (piece : Text) : Prop :=
  ∃ front back, text = front ++ piece ++ back ∧ span = (size front, size front + size piece)

/-- Disjoint, or one inside the other. -/
def Laminar (a b : Span) : Prop :=
  (a.2 ≤ b.1 ∨ b.2 ≤ a.1) ∨ (b.1 ≤ a.1 ∧ a.2 ≤ b.2) ∨ (a.1 ≤ b.1 ∧ b.2 ≤ a.2)

/-- An occurrence is before a later one, or inside it. -/
def Precedes (a b : Occurrence) : Prop :=
  a.span.2 ≤ b.span.1 ∨ (b.span.1 ≤ a.span.1 ∧ a.span.2 ≤ b.span.2)

theorem occurrences_numbers (defaults : Defaults) (base : Nat) (nodes : Nodes) :
    (occurrences defaults base nodes).map Occurrence.index = nodes.numbers := by
  induction nodes generalizing base with
  | nil => rfl
  | text literal rest ih => exact ih _
  | stop index body choices rest ih_body ih =>
      simp only [occurrences, Nodes.numbers, List.map_append, List.map_cons, ih]
      split
      · rw [ih_body]
      · rfl

/-- Every occurrence covers its text. -/
theorem occurrences_covers {base : Nat} {found : Occurrence}
    (member : found ∈ occurrences defaults base nodes) :
    ∃ front back, renderDefault defaults nodes = front ++ found.text ++ back ∧
      found.span = (base + size front, base + size front + size found.text) := by
  induction nodes generalizing base with
  | nil => cases member
  | text literal rest ih =>
      obtain ⟨front, back, whole, span_eq⟩ := ih member
      refine ⟨literal ++ front, back, ?_, ?_⟩
      · rw [renderDefault, whole]
        simp only [List.append_assoc]
      · rw [span_eq, size_append, Nat.add_assoc]
  | stop index body choices rest ih_body ih =>
      rw [renderDefault_stop]
      rcases List.mem_append.1 member with inner | later
      · split at inner
        · next bare =>
          subst bare
          obtain ⟨front, back, whole, span_eq⟩ := ih_body inner
          have filled : body ≠ Nodes.nil := by
            rintro rfl
            cases inner
          have own : ownText defaults index body [] = renderDefault defaults body := if_neg filled
          refine ⟨front, back ++ renderDefault defaults rest, ?_, span_eq⟩
          rw [own, whole]
          simp only [List.append_assoc]
        · cases inner
      · rcases List.mem_cons.1 later with rfl | later
        · exact ⟨[], renderDefault defaults rest, rfl, rfl⟩
        · obtain ⟨front, back, whole, span_eq⟩ := ih later
          refine ⟨ownText defaults index body choices ++ front, back, ?_, ?_⟩
          · rw [whole]
            simp only [List.append_assoc]
          · rw [span_eq, size_append, Nat.add_assoc]

theorem occurrences_bounds {base : Nat} {found : Occurrence}
    (member : found ∈ occurrences defaults base nodes) :
    base ≤ found.span.1 ∧ found.span.1 ≤ found.span.2 ∧
      found.span.2 ≤ base + size (renderDefault defaults nodes) := by
  obtain ⟨front, back, whole, span_eq⟩ := occurrences_covers member
  rw [whole, span_eq, size_append, size_append]
  dsimp only
  omega

theorem occurrences_precede (defaults : Defaults) (base : Nat) (nodes : Nodes) :
    (occurrences defaults base nodes).Pairwise Precedes := by
  induction nodes generalizing base with
  | nil => exact List.Pairwise.nil
  | text literal rest ih => exact ih _
  | stop index body choices rest ih_body ih =>
      have inner_bounds : ∀ found ∈ (if choices = [] then occurrences defaults base body else []),
          base ≤ found.span.1 ∧
            found.span.2 ≤ base + size (ownText defaults index body choices) := by
        intro found member
        split at member
        · next bare =>
          subst bare
          have filled : body ≠ Nodes.nil := by
            rintro rfl
            cases member
          have own : ownText defaults index body [] = renderDefault defaults body := if_neg filled
          have bounds := occurrences_bounds member
          rw [own]
          exact ⟨bounds.1, bounds.2.2⟩
        · cases member
      rw [occurrences]
      apply List.pairwise_append.2
      refine ⟨?_, ?_, ?_⟩
      · split
        · exact ih_body base
        · exact List.Pairwise.nil
      · apply List.pairwise_cons.2
        constructor
        · intro later member
          left
          exact (occurrences_bounds member).1
        · exact ih _
      · intro inner member later after
        have bounds := inner_bounds inner member
        rcases List.mem_cons.1 after with rfl | after
        · right
          exact bounds
        · left
          exact bounds.2.trans (occurrences_bounds after).1

theorem Precedes.laminar {a b : Occurrence} (precedes : Precedes a b) : Laminar a.span b.span := by
  rcases precedes with before | inside
  · exact .inl (.inl before)
  · exact .inr (.inl inside)

theorem Laminar.symm {a b : Span} (laminar : Laminar a b) : Laminar b a := by
  rcases laminar with (before | behind) | inside | around
  · exact .inl (.inr before)
  · exact .inl (.inl behind)
  · exact .inr (.inr inside)
  · exact .inr (.inl around)

/-! ### Stops -/

/-- What a snippet keeps in order: places inside the text, each number's sorted, those of two numbers
disjoint or nested, every number once, and the numbers ascending with 0 at the end. -/
structure WellFormed (parsed : ParsedSnippet) : Prop where
  inside : ∀ stop ∈ parsed.stops, ∀ span ∈ stop.spans, ∃ piece, Covers parsed.text span piece
  sorted : ∀ stop ∈ parsed.stops, stop.spans.Pairwise fun a b => a.1 ≤ b.1
  laminar : ∀ stop ∈ parsed.stops, ∀ other ∈ parsed.stops, stop.index ≠ other.index →
    ∀ a ∈ stop.spans, ∀ b ∈ other.spans, Laminar a b
  distinct : (parsed.stops.map TabStop.index).Nodup
  ordered : (parsed.stops.map TabStop.index).Pairwise fun a b => a ≠ 0 ∧ (b = 0 ∨ a < b)

/-- The tabstops of a snippet, in the order of its text. -/
def found (nodes : Nodes) : List Occurrence :=
  occurrences (resolveDefaults nodes fun _ => none) 0 nodes

/-- The stops in the order of the map. -/
def Layout.unsorted (out : Layout) : List TabStop :=
  out.spans.map fun (index, spans) =>
    { index := index
      spans := spans.insertionSort fun a b => a.1 ≤ b.1
      choices := (out.choices index).getD [] }

theorem laidOut_spans (nodes : Nodes) :
    (layout (resolveDefaults nodes fun _ => none) nodes .empty).spans = pushAll [] (found nodes) :=
  (layout_eq _ nodes .empty).2

theorem laidOut_text (nodes : Nodes) :
    (laidOut nodes).text = renderDefault (resolveDefaults nodes fun _ => none) nodes :=
  (layout_eq _ nodes .empty).1

/-- The stops of a snippet are the listed numbers with their spans. -/
theorem mem_stops {stop : TabStop} (member : stop ∈ (laidOut nodes).stops) {span : Span}
    (listed : span ∈ stop.spans) :
    ∃ occurrence ∈ found nodes, occurrence.index = stop.index ∧ occurrence.span = span := by
  have member := (List.mem_insertionSort _).1 member
  obtain ⟨⟨index, spans⟩, entry, rfl⟩ := List.mem_map.1 member
  rw [laidOut_spans] at entry
  have listed : Listed (pushAll [] (found nodes)) index span :=
    ⟨spans, entry, (List.mem_insertionSort _).1 listed⟩
  rcases listed_pushAll.1 listed with none_ | found
  · exact absurd none_ (listed_nil _ _)
  · exact found

/-- The numbers of the stops, before they are put in order. -/
theorem unsorted_indices (nodes : Nodes) :
    (layout (resolveDefaults nodes fun _ => none) nodes .empty).unsorted.map TabStop.index =
      (pushAll [] (found nodes)).map Prod.fst := by
  rw [Layout.unsorted, List.map_map, laidOut_spans]
  rfl

theorem mem_unsorted :
    index ∈ (pushAll [] (found nodes)).map Prod.fst ↔ index ∈ nodes.numbers := by
  rw [keys_pushAll, found, occurrences_numbers]
  simp

theorem laidOut_perm (nodes : Nodes) :
    ((laidOut nodes).stops.map TabStop.index).Perm ((pushAll [] (found nodes)).map Prod.fst) := by
  rw [← unsorted_indices]
  exact (List.perm_insertionSort _ _).map _

theorem sortKey_le (index : UInt32) : sortKey index ≤ maxU32 := by
  unfold sortKey
  split
  · exact Nat.le_refl _
  · have := index.toNat_lt
    unfold maxU32
    omega

theorem sorted_keys (nodes : Nodes) : ((pushAll [] (found nodes)).map Prod.fst).Pairwise (· < ·) :=
  sorted_pushAll _ List.Pairwise.nil

theorem laidOut_nodup (nodes : Nodes) : ((laidOut nodes).stops.map TabStop.index).Nodup := by
  apply (laidOut_perm nodes).nodup_iff.2
  apply (sorted_keys nodes).imp
  intro a b lt
  exact UInt32.ne_of_lt lt

/-- The numbers are in order unless both 0 and the greatest are there. -/
theorem laidOut_ordered (apart : ¬ (0 ∈ nodes.numbers ∧ 4294967295 ∈ nodes.numbers)) :
    ((laidOut nodes).stops.map TabStop.index).Pairwise fun a b => a ≠ 0 ∧ (b = 0 ∨ a < b) := by
  have by_key : (laidOut nodes).stops.Pairwise fun a b => sortKey a.index ≤ sortKey b.index :=
    List.pairwise_insertionSort (fun a b : TabStop => sortKey a.index ≤ sortKey b.index) _
  have by_number : ((laidOut nodes).stops.map TabStop.index).Pairwise
      fun a b => sortKey a ≤ sortKey b := List.pairwise_map.2 by_key
  apply (by_number.and (laidOut_nodup nodes)).imp_of_mem
  intro a b a_member b_member ⟨le, differ⟩
  have numbers : ∀ index ∈ (laidOut nodes).stops.map TabStop.index, index ∈ nodes.numbers :=
    fun index member => mem_unsorted.1 ((laidOut_perm nodes).mem_iff.1 member)
  have not_last : a ≠ 0 := by
    rintro rfl
    have b_key : sortKey b = maxU32 := Nat.le_antisymm (sortKey_le b) le
    have b_max : b = 4294967295 := by
      rw [sortKey, if_neg (Ne.symm differ)] at b_key
      exact UInt32.toNat_inj.1 b_key
    exact apart ⟨numbers 0 a_member, b_max ▸ numbers b b_member⟩
  constructor
  · exact not_last
  · by_cases last : b = 0
    · exact .inl last
    · right
      rw [sortKey, sortKey, if_neg not_last, if_neg last] at le
      exact UInt32.lt_of_le_of_ne (UInt32.le_iff_toNat_le.2 le) differ

/-- Two elements of an ascending list, in their order. -/
theorem pair_sublist {numbers : List UInt32} {a b : UInt32} (sorted : numbers.Pairwise (· < ·))
    (a_member : a ∈ numbers) (b_member : b ∈ numbers) (lt : a < b) : [a, b].Sublist numbers := by
  induction numbers with
  | nil => cases a_member
  | cons first numbers ih =>
      obtain ⟨above, sorted_rest⟩ := List.pairwise_cons.1 sorted
      rcases List.mem_cons.1 a_member with rfl | a_later
      · rcases List.mem_cons.1 b_member with rfl | b_later
        · exact absurd lt (UInt32.lt_irrefl _)
        · exact List.Sublist.cons_cons _ (List.singleton_sublist.2 b_later)
      · rcases List.mem_cons.1 b_member with rfl | b_later
        · exact absurd (above a a_later) (UInt32.lt_asymm lt)
        · exact (ih sorted_rest a_later b_later).cons _

/-- With both, 0 is in front of the greatest, since the sort is stable. -/
theorem laidOut_unordered (both : 0 ∈ nodes.numbers ∧ 4294967295 ∈ nodes.numbers) :
    ¬ ((laidOut nodes).stops.map TabStop.index).Pairwise
      fun a b => a ≠ 0 ∧ (b = 0 ∨ a < b) := by
  intro ordered
  have pair : [(0 : UInt32), 4294967295].Sublist
      ((layout (resolveDefaults nodes fun _ => none) nodes .empty).unsorted.map
        TabStop.index) := by
    rw [unsorted_indices]
    exact pair_sublist (sorted_keys nodes) (mem_unsorted.2 both.1) (mem_unsorted.2 both.2)
      (by decide)
  obtain ⟨stops, sub, stops_eq⟩ := List.sublist_map_iff.1 pair
  have tied : stops.Pairwise fun a b => sortKey a.index ≤ sortKey b.index := by
    have keys : (stops.map TabStop.index).Pairwise fun a b => sortKey a ≤ sortKey b := by
      rw [← stops_eq]
      decide
    exact (List.pairwise_map (R := fun a b => sortKey a ≤ sortKey b)).1 keys
  have kept : stops.Sublist (laidOut nodes).stops := List.sublist_insertionSort tied sub
  have kept := kept.map TabStop.index
  rw [← stops_eq] at kept
  have first := List.rel_of_pairwise_cons (ordered.sublist kept) List.mem_cons_self
  exact first.1 rfl

theorem laidOut_inside : ∀ stop ∈ (laidOut nodes).stops, ∀ span ∈ stop.spans,
      ∃ piece, Covers (laidOut nodes).text span piece := by
  intro stop member span listed
  obtain ⟨occurrence, occurs, -, rfl⟩ := mem_stops member listed
  obtain ⟨front, back, whole, span_eq⟩ := occurrences_covers occurs
  rw [laidOut_text]
  refine ⟨occurrence.text, front, back, whole, ?_⟩
  rw [span_eq, Nat.zero_add]

theorem laidOut_sorted :
    ∀ stop ∈ (laidOut nodes).stops, stop.spans.Pairwise fun a b => a.1 ≤ b.1 := by
  intro stop member
  have member := (List.mem_insertionSort _).1 member
  obtain ⟨⟨index, spans⟩, _, rfl⟩ := List.mem_map.1 member
  exact List.pairwise_insertionSort (fun a b : Span => a.1 ≤ b.1) _

theorem laidOut_laminar :
    ∀ stop ∈ (laidOut nodes).stops, ∀ other ∈ (laidOut nodes).stops, stop.index ≠ other.index →
      ∀ a ∈ stop.spans, ∀ b ∈ other.spans, Laminar a b := by
  intro stop member other other_member differ a a_listed b b_listed
  obtain ⟨first, first_occurs, first_index, rfl⟩ := mem_stops member a_listed
  obtain ⟨second, second_occurs, second_index, rfl⟩ := mem_stops other_member b_listed
  have laminar : (found nodes).Pairwise fun a b => Laminar a.span b.span :=
    (occurrences_precede _ 0 nodes).imp fun precedes => precedes.laminar
  have symmetric : Std.Symm fun a b : Occurrence => Laminar a.span b.span :=
    ⟨fun _ _ laminar => laminar.symm⟩
  apply laminar.forall first_occurs second_occurs
  rintro rfl
  exact differ (first_index.symm.trans second_index)

/-- What is laid out of a tree is well formed exactly when 0 and the greatest number are not both in
it. -/
theorem laidOut_well_formed_iff (nodes : Nodes) :
    WellFormed (laidOut nodes) ↔ ¬ (0 ∈ nodes.numbers ∧ 4294967295 ∈ nodes.numbers) := by
  constructor
  · intro formed both
    exact laidOut_unordered both formed.ordered
  · intro apart
    exact ⟨laidOut_inside, laidOut_sorted, laidOut_laminar, laidOut_nodup nodes,
      laidOut_ordered apart⟩

/-- No body makes the parser panic, and the snippet it gives is well formed exactly when the body has
not both a tabstop 0 and one whose number is cut to the greatest. -/
theorem snippet_well_formed_iff (src : Text) :
    (parseSnippet (bytes src)).Safe WellFormed ↔
      ∀ nodes, parseTree (bytes src) = .ok nodes →
        ¬ (0 ∈ nodes.numbers ∧ 4294967295 ∈ nodes.numbers) := by
  have safe := parseTree_safe src
  rw [parseSnippet]
  cases parsed : parseTree (bytes src) with
  | ok nodes =>
      constructor
      · intro formed nodes' same
        cases same
        exact (laidOut_well_formed_iff nodes).1 formed
      · intro apart
        exact (laidOut_well_formed_iff nodes).2 (apart nodes rfl)
  | error what =>
      constructor
      · intro _ nodes same
        cases same
      · intro _
        trivial
  | panicked =>
      rw [parsed] at safe
      exact safe.elim

/-- The greatest number comes behind 0. -/
theorem snippet_last_not_zero :
    ¬ (parseSnippet (bytes "$0$4294967295".toList)).Safe WellFormed := by
  have parsed : (parseSnippet (bytes "$0$4294967295".toList)) =
      .ok ⟨[], [⟨0, [(0, 0)], []⟩, ⟨4294967295, [(0, 0)], []⟩]⟩ := by decide +kernel
  rw [parsed]
  intro formed
  have ordered : [(0 : UInt32), 4294967295].Pairwise fun a b => a ≠ 0 ∧ (b = 0 ∨ a < b) :=
    formed.ordered
  revert ordered
  decide

end Bemtvi.Core.Snippet
