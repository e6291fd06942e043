/-
Module: Bemtvi.Core.ExprText
Purpose: What is written is read: the tokens of a text that was written from tokens are these
  tokens, and so an expression written out evaluates to the meaning of its tree.
Trusted boundary: proofs are kernel-checked; definitions are inherited from imported modules
Main exports: tokenize_written, evalExpr_written
-/
import Bemtvi.Core.ExprLaws

namespace Bemtvi.Core.Expr

open Parsing Utf8

section Writing

variable {F : Type} {std : Std F}

/-! ### Runs of characters -/

/-- Nothing, or a blank. -/
def Apart (behind : Text) : Prop := ∀ c rest, behind = c :: rest → c = ' '

theorem apart_nil : Apart [] := by
  intro c rest same
  cases same

theorem apart_blank (rest : Text) : Apart (' ' :: rest) := by
  rintro c rest' ⟨rfl, rfl⟩
  rfl

variable {behind digits text : Text} {p : Char → Bool} {c : Char} {texts : List Text}
  {toks : List (Tok F)}

theorem takeWhile_apart {run : Text} (each : ∀ c ∈ run, p c = true) (stops : p ' ' = false)
    (apart : Apart behind) : (run ++ behind).takeWhile p = run := by
  rw [List.takeWhile_append_of_pos each]
  cases behind with
  | nil => simp
  | cons c behind =>
      rw [apart c behind rfl, List.takeWhile_cons, if_neg (by rw [stops]; exact Bool.false_ne_true),
        List.append_nil]

theorem dropWhile_apart {run : Text} (each : ∀ c ∈ run, p c = true) (stops : p ' ' = false)
    (apart : Apart behind) : (run ++ behind).dropWhile p = behind := by
  rw [List.dropWhile_append_of_pos each]
  cases behind with
  | nil => rfl
  | cons c behind =>
      rw [apart c behind rfl, List.dropWhile_cons, if_neg (by rw [stops]; exact Bool.false_ne_true)]

/-! ### Strings -/

theorem lexSingleString_written (s behind : Text) (apart : Apart behind) :
    lexSingleString (s.flatMap doubleQuote ++ '\'' :: behind) = .ok (s, behind) := by
  induction s with
  | nil =>
      rw [List.flatMap_nil, List.nil_append, lexSingleString.eq_def]
      cases behind with
      | nil => rfl
      | cons c behind =>
          obtain rfl := apart c behind rfl
          rfl
  | cons c s ih =>
      rw [List.flatMap_cons, List.append_assoc, doubleQuote]
      split
      · next quote =>
          subst quote
          simp only [List.cons_append, List.nil_append, lexSingleString, if_true, ih]
          rfl
      · next other =>
          rw [List.cons_append, List.nil_append, lexSingleString.eq_def]
          simp only [if_neg other, ih]
          rfl

theorem lexDoubleString_plain (quote : c ≠ '"') (backslash : c ≠ '\\') (rest : Text) :
    lexDoubleString (c :: rest) =
      (lexDoubleString rest).map fun (out, rest) => (c :: out, rest) := by
  rw [lexDoubleString.eq_def]
  simp only [if_neg quote, if_neg backslash]

theorem lexDoubleString_escaped (c : Char) (rest : Text) :
    lexDoubleString ('\\' :: c :: rest) =
      (lexDoubleString rest).map fun (out, rest) => (unescape c :: out, rest) := by
  rw [lexDoubleString.eq_def]
  simp only [if_neg (show '\\' ≠ '"' by decide), if_true]

theorem unescape_kept (other : c ∉ ['n', 't', 'r', '0', 'e']) : unescape c = c := by
  simp only [List.mem_cons, List.not_mem_nil, or_false, not_or] at other
  obtain ⟨newline, tab, carriage, null, escape⟩ := other
  rw [unescape, if_neg newline, if_neg tab, if_neg carriage, if_neg null, if_neg escape]

theorem lexDoubleString_written {pieces : List Text} {s : Text}
    (each : List.Forall₂ Piece pieces s) (behind : Text) :
    lexDoubleString (pieces.flatten ++ '"' :: behind) = .ok (s, behind) := by
  induction each with
  | nil =>
      rw [List.flatten_nil, List.nil_append, lexDoubleString.eq_def]
      rfl
  | @cons piece c pieces s head each ih =>
      rw [List.flatten_cons, List.append_assoc]
      cases head with
      | plain quote backslash =>
          rw [List.cons_append, List.nil_append, lexDoubleString_plain quote backslash, ih]
          rfl
      | kept other =>
          rw [List.cons_append, List.cons_append, List.nil_append, lexDoubleString_escaped, ih,
            unescape_kept other]
          rfl
      | _ =>
          rw [List.cons_append, List.cons_append, List.nil_append, lexDoubleString_escaped, ih]
          rfl

/-! ### Numbers -/

theorem number_decimal (std : Std F) (each : ∀ c ∈ digits, c.isDigit = true)
    (apart : Apart behind) :
    number std [] (digits ++ behind) = (.int (parseInt false 10 digits), behind) := by
  rw [number, takeWhile_apart each rfl apart, dropWhile_apart each rfl apart]
  cases behind with
  | nil => rfl
  | cons c behind =>
      obtain rfl := apart c behind rfl
      rfl

theorem number_float (std : Std F) {places : Text} {d : Char}
    (each : ∀ c ∈ digits, c.isDigit = true) (digit : d.isDigit = true)
    (after : ∀ c ∈ places, c.isDigit = true) (apart : Apart behind) :
    number std [] (digits ++ '.' :: d :: places ++ behind) =
      (.float (std.parse (digits ++ '.' :: d :: places)), behind) := by
  have fraction : ∀ c ∈ d :: places, c.isDigit = true := by
    intro c among
    rcases List.mem_cons.1 among with rfl | among
    · exact digit
    · exact after c among
  have taken := takeWhile_apart (p := Char.isDigit) fraction rfl apart
  have left := dropWhile_apart (p := Char.isDigit) fraction rfl apart
  rw [List.cons_append] at taken left
  rw [number, List.append_assoc, List.takeWhile_append_of_pos each,
    List.dropWhile_append_of_pos each]
  have taken' : ('.' :: d :: places ++ behind).takeWhile Char.isDigit = [] := rfl
  have left' : ('.' :: d :: places ++ behind).dropWhile Char.isDigit =
      '.' :: d :: (places ++ behind) := rfl
  rw [taken', left']
  simp only [digit, if_true, taken, left, List.append_nil, List.nil_append]

/-! ### Tokens -/

/-- The characters that begin or end no word. -/
def specials : List Char :=
  [' ', '\t', '(', ')', '+', '-', '*', '/', '%', '?', ':', '=', '!', '<', '>', '|', '&', '.', '"',
    '\'']

theorem word_plain (word : (c.isDigit || isNameChar c) = true) : ∀ d ∈ specials, c ≠ d := by
  have apart : ∀ d ∈ specials, (d.isDigit || isNameChar d) = false := by
    intro d among
    rw [specials] at among
    fin_cases among <;> rfl
  rintro d among rfl
  rw [apart c among] at word
  cases word

/-- A character of a word gets to the last branches. -/
theorem lexToken_plain (word : (c.isDigit || isNameChar c) = true) (rest : Text) :
    lexToken std c rest =
      if c.isDigit then .ok (some (lexNumber std (c :: rest)).1, (lexNumber std (c :: rest)).2)
      else .ok (some (.ident ((c :: rest).takeWhile isIdentChar)),
        (c :: rest).dropWhile isIdentChar) := by
  have plain := word_plain word
  simp only [specials, List.forall_mem_cons] at plain
  rw [Bool.or_eq_true] at word
  simp only [lexToken, symbol?, plain, or_self, if_false]
  split
  · rfl
  · next other => rw [if_pos (word.resolve_left other)]

theorem not_digit_of_name (name : isNameChar c = true) : c.isDigit ≠ true := by
  intro digit
  simp only [isNameChar, Char.isAlpha, Char.isUpper, Char.isLower, Char.isDigit, Bool.or_eq_true,
    Bool.and_eq_true, decide_eq_true_eq, beq_iff_eq, ge_iff_le, UInt32.le_iff_toNat_le]
    at name digit
  rcases name with (upper | lower) | rfl
  · have above := upper.1
    have below := digit.2
    have impossible := above.trans below
    exact absurd impossible (by decide)
  · have above := lower.1
    have below := digit.2
    have impossible := above.trans below
    exact absurd impossible (by decide)
  · exact absurd digit (by decide)

theorem ident_of_name (name : isNameChar c = true) : isIdentChar c = true := by
  rw [isNameChar, Bool.or_eq_true] at name
  rw [isIdentChar, Char.isAlphanum]
  rcases name with letter | line
  · rw [letter, Bool.true_or, Bool.true_or, Bool.true_or]
  · rw [line, Bool.or_true, Bool.true_or]

theorem not_hex {x : Char} (plain : x.isDigit = true ∨ x = ' ' ∨ x = '.') : x ≠ 'x' ∧ x ≠ 'X' := by
  constructor
  all_goals
    rintro rfl
    rcases plain with digit | blank | point
    · cases digit
    · cases blank
    · cases point

theorem lexNumber_eq (decimal : ∀ x rest, text = '0' :: x :: rest → x ≠ 'x' ∧ x ≠ 'X') :
    lexNumber std text = ((number std [] text).1.tok, (number std [] text).2) := by
  rw [lexNumber.eq_def]
  split
  · next x rest =>
      rw [if_neg]
      exact not_or.2 (decimal x rest rfl)
  · rfl

theorem lexNumber_hex (std : Std F) {x : Char} (sign : x = 'x' ∨ x = 'X')
    (each : ∀ c ∈ digits, isHexDigit c = true) (apart : Apart behind) :
    lexNumber std ('0' :: x :: digits ++ behind) =
      (.int (parseInt false 16 digits), behind) := by
  rw [List.cons_append, List.cons_append, lexNumber, if_pos sign, takeWhile_apart each rfl apart,
    dropWhile_apart each rfl apart]

theorem lexOption_eq (unscoped : ∀ c rest, text ≠ c :: ':' :: rest) : lexOption text =
      if text.takeWhile isNameChar = [] then
        .error "E15: Invalid expression: '&' with no option name"
      else .ok (text.takeWhile isNameChar, text.dropWhile isNameChar) := by
  rw [lexOption]
  exact unscoped

theorem lexOption_name {name : Text} (some : name ≠ []) (each : ∀ c ∈ name, isNameChar c = true)
    (apart : Apart behind) : lexOption (name ++ behind) = .ok (name, behind) := by
  rw [lexOption_eq, takeWhile_apart each rfl apart, dropWhile_apart each rfl apart, if_neg some]
  intro c rest same
  match name with
  | [_] =>
      rw [List.cons_append, List.nil_append, List.cons.injEq] at same
      exact absurd (apart _ _ same.2) (by decide)
  | _ :: d :: _ =>
      rw [List.cons_append, List.cons_append, List.cons.injEq, List.cons.injEq] at same
      have colon := each d (by simp)
      rw [same.2.1] at colon
      cases colon

theorem lexOption_scoped {scope : Char} {name : Text} (letter : scope = 'l' ∨ scope = 'g')
    (some : name ≠ []) (each : ∀ c ∈ name, isNameChar c = true) (apart : Apart behind) :
    lexOption (scope :: ':' :: name ++ behind) = .ok (name, behind) := by
  rw [List.cons_append, List.cons_append, lexOption]
  simp only [if_pos letter, takeWhile_apart each rfl apart, dropWhile_apart each rfl apart,
    if_neg some]

/-- Digits that a blank, a dot or nothing follows are a number, and no hexadecimal one. -/
theorem lexToken_number {tail : Text} (each : ∀ d ∈ c :: digits, d.isDigit = true)
    (after : ∀ x rest, tail = x :: rest → x = ' ' ∨ x = '.') : lexToken std c (digits ++ tail) =
      .ok (some (number std [] (c :: (digits ++ tail))).1.tok,
        (number std [] (c :: (digits ++ tail))).2) := by
  have digit := each c List.mem_cons_self
  rw [lexToken_plain (by rw [digit, Bool.true_or]), if_pos digit, lexNumber_eq]
  rintro x rest same
  have second := (List.cons.inj same).2
  cases digits with
  | nil => exact not_hex (.inr (after x rest second))
  | cons d digits =>
      rw [List.cons_append, List.cons.injEq] at second
      exact not_hex (.inl (second.1 ▸ each d (by simp)))

/-- The token at the head of a text is the one that was written there. -/
theorem lexToken_writes {t : Tok F} (writes : Writes std text t) (apart : Apart behind) :
    ∃ c rest, text = c :: rest ∧ lexToken std c (rest ++ behind) = .ok (some t, behind) := by
  have blankOrNot : behind = [] ∨ ∃ rest, behind = ' ' :: rest := by
    cases behind with
    | nil => exact .inl rfl
    | cons c rest => exact .inr ⟨rest, by rw [apart c rest rfl]⟩
  cases writes with
  | @symbol c t symbol =>
      refine ⟨c, [], rfl, ?_⟩
      have shown : ¬ (c = ' ' ∨ c = '\t') := by
        rintro (rfl | rfl)
        all_goals cases symbol
      simp only [lexToken, if_neg shown, symbol, List.nil_append]
  | eq => exact ⟨'=', ['='], rfl, rfl⟩
  | ne => exact ⟨'!', ['='], rfl, rfl⟩
  | le => exact ⟨'<', ['='], rfl, rfl⟩
  | ge => exact ⟨'>', ['='], rfl, rfl⟩
  | andAnd => exact ⟨'&', ['&'], rfl, rfl⟩
  | orOr => exact ⟨'|', ['|'], rfl, rfl⟩
  | dots => exact ⟨'.', ['.'], rfl, rfl⟩
  | lt => rcases blankOrNot with rfl | ⟨rest, rfl⟩ <;> exact ⟨'<', [], rfl, rfl⟩
  | gt => rcases blankOrNot with rfl | ⟨rest, rfl⟩ <;> exact ⟨'>', [], rfl, rfl⟩
  | bang => rcases blankOrNot with rfl | ⟨rest, rfl⟩ <;> exact ⟨'!', [], rfl, rfl⟩
  | dot => rcases blankOrNot with rfl | ⟨rest, rfl⟩ <;> exact ⟨'.', [], rfl, rfl⟩
  | single s =>
      refine ⟨'\'', _, rfl, ?_⟩
      rw [List.append_assoc, List.singleton_append]
      have lexed := congrArg (Except.map fun read => (some (Tok.str (F := F) read.1), read.2))
        (lexSingleString_written s behind apart)
      exact lexed
  | double pieces =>
      refine ⟨'"', _, rfl, ?_⟩
      rw [List.append_assoc, List.singleton_append]
      have lexed := congrArg (Except.map fun read => (some (Tok.str (F := F) read.1), read.2))
        (lexDoubleString_written pieces behind)
      exact lexed
  | decimal nonempty each =>
      cases text with
      | nil => exact absurd rfl nonempty
      | cons c digits =>
          refine ⟨c, digits, rfl, ?_⟩
          have read := number_decimal std each apart
          rw [List.cons_append] at read
          rw [lexToken_number each fun x rest same => .inl (apart x rest same), read]
          rfl
  | @hex x digits sign each =>
      refine ⟨'0', _, rfl, ?_⟩
      rw [lexToken_plain rfl, if_pos (show ('0' : Char).isDigit = true from rfl)]
      have read := lexNumber_hex std sign each apart
      rw [List.cons_append] at read
      rw [read]
  | @float digits d places nonempty each digit after =>
      cases digits with
      | nil => exact absurd rfl nonempty
      | cons c digits =>
          refine ⟨c, digits ++ '.' :: d :: places, rfl, ?_⟩
          have read := number_float std each digit after apart
          rw [List.append_assoc, List.cons_append] at read
          rw [List.append_assoc, lexToken_number each, read]
          · rfl
          · rintro x rest same
            exact .inr (List.cons.inj same).1.symm
  | @option name nonempty each =>
      refine ⟨'&', _, rfl, ?_⟩
      have lexed := congrArg
        (Except.map fun read => (some (Tok.option (F := F) read.1), read.2))
        (lexOption_name nonempty each apart)
      cases name with
      | nil => exact absurd rfl nonempty
      | cons c name =>
          have other : (c :: name ++ behind).head? ≠ some '&' := by
            rintro ⟨rfl⟩
            cases each '&' List.mem_cons_self
          exact (if_neg other).trans lexed
  | @scopedOption scope name letter nonempty each =>
      refine ⟨'&', _, rfl, ?_⟩
      have lexed := congrArg
        (Except.map fun read => (some (Tok.option (F := F) read.1), read.2))
        (lexOption_scoped letter nonempty each apart)
      have other : (scope :: ':' :: name ++ behind).head? ≠ some '&' := by
        rcases letter with rfl | rfl
        all_goals
          rintro ⟨same⟩
      exact (if_neg other).trans lexed
  | @ident c name starts each =>
      refine ⟨c, name, rfl, ?_⟩
      have word : ∀ d ∈ c :: name, isIdentChar d = true := by
        intro d among
        rcases List.mem_cons.1 among with rfl | among
        · exact ident_of_name starts
        · exact each d among
      have taken := takeWhile_apart word rfl apart
      have left := dropWhile_apart word rfl apart
      rw [List.cons_append] at taken left
      rw [lexToken_plain (by rw [starts, Bool.or_true]), if_neg (not_digit_of_name starts), taken,
        left]

/-! ### Texts -/

theorem written_cons (text text' : Text) (texts : List Text) :
    written (text :: text' :: texts) = text ++ ' ' :: written (text' :: texts) := by
  simp [written, List.intercalate, List.intersperse]

theorem tokenizeFrom_written (each : List.Forall₂ (Writes std) texts toks) {fuel : Nat}
    (enough : (written texts).length ≤ fuel) :
    tokenizeFrom std fuel (written texts) = .ok toks := by
  induction each generalizing fuel with
  | nil => cases fuel <;> rfl
  | @cons text t texts toks writes each ih =>
      cases texts with
      | nil =>
          cases each
          obtain ⟨c, rest, rfl, lexed⟩ := lexToken_writes writes apart_nil
          have alone : written [c :: rest] = c :: rest := by simp [written, List.intercalate]
          rw [alone] at enough ⊢
          rw [List.append_nil] at lexed
          cases fuel with
          | zero => cases enough
          | succ fuel =>
              rw [tokenizeFrom, lexed]
              cases fuel <;> rfl
      | cons text' texts =>
          obtain ⟨c, rest, rfl, lexed⟩ :=
            lexToken_writes writes (apart_blank (written (text' :: texts)))
          rw [written_cons] at enough ⊢
          simp only [List.cons_append, List.length_cons, List.length_append] at enough
          cases fuel with
          | zero => omega
          | succ fuel =>
              rw [List.cons_append, tokenizeFrom, lexed]
              cases fuel with
              | zero => omega
              | succ fuel =>
                  have blank : lexToken std ' ' (written (text' :: texts)) =
                    .ok (none, written (text' :: texts)) := rfl
                  simp only [tokenizeFrom, blank, ih (show _ ≤ fuel by omega)]
                  rfl

/-- Tokens that are written with blanks between them are the tokens that are read. -/
theorem tokenize_written (each : List.Forall₂ (Writes std) texts toks) :
    tokenize std (written texts) = .ok toks :=
  tokenizeFrom_written each le_rfl

/-! ### Nothing to trim -/

/-- A text that begins and ends with no white space. -/
def Solid (text : Text) : Prop :=
  (∃ c rest, text = c :: rest ∧ isWhitespace c = false) ∧
    ∃ front c, text = front ++ [c] ∧ isWhitespace c = false

theorem trim_solid (solid : Solid text) : trim text = text := by
  obtain ⟨⟨c, rest, begins, first⟩, front, d, ends, last⟩ := solid
  have start : trimStart text = text := by
    rw [begins, trimStart, List.dropWhile_cons,
      if_neg (by rw [first]; exact Bool.false_ne_true)]
  rw [trim, start, ends, trimEnd,
    List.rdropWhile_concat_neg _ _ _ (by rw [last]; exact Bool.false_ne_true)]

theorem solid_of_each (nonempty : text ≠ []) (each : ∀ c ∈ text, isWhitespace c = false) :
    Solid text := by
  constructor
  · cases text with
    | nil => exact absurd rfl nonempty
    | cons c rest => exact ⟨c, rest, rfl, each c List.mem_cons_self⟩
  · refine ⟨text.dropLast, text.getLast nonempty, (List.dropLast_append_getLast nonempty).symm, ?_⟩
    exact each _ (List.getLast_mem nonempty)

theorem Solid.between {text' : Text} (solid : Solid text) (solid' : Solid text') (middle : Text) :
    Solid (text ++ (middle ++ text')) := by
  obtain ⟨⟨c, rest, rfl, first⟩, -⟩ := solid
  obtain ⟨-, front, d, rfl, last⟩ := solid'
  exact ⟨⟨c, _, rfl, first⟩, c :: rest ++ (middle ++ front), d, by simp, last⟩

theorem ident_bounds (word : isIdentChar c = true) : 48 ≤ c.toNat ∧ c.toNat ≤ 122 := by
  have letters : ∀ {low high : UInt32}, low ≤ c.val → c.val ≤ high → 48 ≤ low.toNat →
      high.toNat ≤ 122 → 48 ≤ c.toNat ∧ c.toNat ≤ 122 := by
    intro low high above below least most
    exact ⟨least.trans (UInt32.le_iff_toNat_le.1 above),
      (UInt32.le_iff_toNat_le.1 below).trans most⟩
  simp only [isIdentChar, Char.isAlphanum, Char.isAlpha, Char.isUpper, Char.isLower, Char.isDigit,
    Bool.or_eq_true, Bool.and_eq_true, decide_eq_true_eq, beq_iff_eq, ge_iff_le] at word
  rcases word with ((((upper | lower) | digit) | rfl) | rfl)
  · exact letters upper.1 upper.2 (by decide) (by decide)
  · exact letters lower.1 lower.2 (by decide) (by decide)
  · exact letters digit.1 digit.2 (by decide) (by decide)
  · decide
  · decide

theorem not_whitespace_of_bounds (bounds : 48 ≤ c.toNat ∧ c.toNat ≤ 122) :
    isWhitespace c = false := by
  obtain ⟨least, most⟩ := bounds
  simp only [isWhitespace, Bool.or_eq_false_iff, Bool.and_eq_false_iff, decide_eq_false_iff_not,
    beq_eq_false_iff_ne]
  omega

theorem not_whitespace_of_ident (word : isIdentChar c = true) : isWhitespace c = false :=
  not_whitespace_of_bounds (ident_bounds word)

theorem ident_of_digit (digit : c.isDigit = true) : isIdentChar c = true := by
  rw [isIdentChar, Char.isAlphanum, digit, Bool.or_true, Bool.true_or, Bool.true_or]

theorem not_whitespace_of_hex (hex : isHexDigit c = true) : isWhitespace c = false := by
  rw [isHexDigit, Bool.or_eq_true, Bool.or_eq_true] at hex
  rcases hex with (digit | lower) | upper
  · exact not_whitespace_of_ident (ident_of_digit digit)
  · simp only [Bool.and_eq_true, decide_eq_true_eq] at lower
    have above : 97 ≤ c.toNat := UInt32.le_iff_toNat_le.1 lower.1
    have below : c.toNat ≤ 102 := UInt32.le_iff_toNat_le.1 lower.2
    exact not_whitespace_of_bounds ⟨by omega, by omega⟩
  · simp only [Bool.and_eq_true, decide_eq_true_eq] at upper
    have above : 65 ≤ c.toNat := UInt32.le_iff_toNat_le.1 upper.1
    have below : c.toNat ≤ 70 := UInt32.le_iff_toNat_le.1 upper.2
    exact not_whitespace_of_bounds ⟨by omega, by omega⟩

/-- What is written begins and ends with no white space. -/
theorem Writes.solid {t : Tok F} (writes : Writes std text t) : Solid text := by
  have each : ∀ text : Text, text ≠ [] → text.all (fun c => !isWhitespace c) = true →
      Solid text := by
    intro text nonempty all
    exact solid_of_each nonempty fun c among => by simpa using List.all_eq_true.1 all c among
  have digits : ∀ {run : Text}, (∀ c ∈ run, c.isDigit = true) → ∀ c ∈ run, isWhitespace c = false :=
    fun each c among => not_whitespace_of_ident (ident_of_digit (each c among))
  cases writes with
  | @symbol c t symbol =>
      refine solid_of_each (List.cons_ne_nil _ _) fun d among => ?_
      obtain rfl := List.mem_singleton.1 among
      rw [symbol?] at symbol
      repeat' split at symbol
      all_goals first | cases symbol; done | (subst_vars; rfl)
  | single s => exact ⟨⟨'\'', _, rfl, rfl⟩, '\'' :: s.flatMap doubleQuote, '\'', rfl, rfl⟩
  | @double pieces s each => exact ⟨⟨'"', _, rfl, rfl⟩, '"' :: pieces.flatten, '"', rfl, rfl⟩
  | decimal nonempty every => exact solid_of_each nonempty (digits every)
  | @hex x run sign every =>
      refine solid_of_each (List.cons_ne_nil _ _) fun d among => ?_
      rcases List.mem_cons.1 among with rfl | among
      · rfl
      rcases List.mem_cons.1 among with rfl | among
      · rcases sign with rfl | rfl <;> rfl
      · exact not_whitespace_of_hex (every d among)
  | @float run d places nonempty every digit after =>
      refine solid_of_each (by simp) fun c among => ?_
      rcases List.mem_append.1 among with before | among
      · exact digits every c before
      rcases List.mem_cons.1 among with rfl | among
      · rfl
      rcases List.mem_cons.1 among with rfl | among
      · exact not_whitespace_of_ident (ident_of_digit digit)
      · exact digits after c among
  | @option name nonempty every =>
      refine solid_of_each (List.cons_ne_nil _ _) fun c among => ?_
      rcases List.mem_cons.1 among with rfl | among
      · rfl
      · exact not_whitespace_of_ident (ident_of_name (every c among))
  | @scopedOption scope name letter nonempty every =>
      refine solid_of_each (List.cons_ne_nil _ _) fun c among => ?_
      rcases List.mem_cons.1 among with rfl | among
      · rfl
      rcases List.mem_cons.1 among with rfl | among
      · rcases letter with rfl | rfl <;> rfl
      rcases List.mem_cons.1 among with rfl | among
      · rfl
      · exact not_whitespace_of_ident (ident_of_name (every c among))
  | @ident c name starts every =>
      refine solid_of_each (List.cons_ne_nil _ _) fun d among => not_whitespace_of_ident ?_
      rcases List.mem_cons.1 among with rfl | among
      · exact ident_of_name starts
      · exact every d among
  | _ => exact each _ (List.cons_ne_nil _ _) rfl

theorem written_solid (each : List.Forall₂ (Writes std) texts toks) (nonempty : toks ≠ []) :
    Solid (written texts) := by
  induction each with
  | nil => exact absurd rfl nonempty
  | @cons text t texts toks writes each ih =>
      cases each with
      | nil =>
          have alone : written [text] = text := by simp [written, List.intercalate]
          rw [alone]
          exact writes.solid
      | @cons text' t' texts toks writes' each =>
          rw [written_cons]
          exact writes.solid.between (ih (List.cons_ne_nil _ _)) [' ']

/-- An expression that is written out is shown as the meaning of its tree. -/
theorem evalExpr_written (resolve : Text → Option OptVal) {texts : List Text} {toks : List (Tok F)}
    {e : Tree F} (each : List.Forall₂ (Writes std) texts toks) (spelled : Spells toks e) :
    evalExpr std resolve (written texts) =
      (e.meaning std (some resolve)).map (Value.display std) := by
  have nonempty : toks ≠ [] := (expression_reads std none).consumes spelled
  refine (evalExpr_means resolve (written texts)).2 toks e ?_ spelled
  rw [trim_solid (written_solid each nonempty)]
  exact tokenize_written each

/-- `&tw ? - 2 + 4 : "n\t\!"`. -/
theorem evalExpr_written_option :
    evalExpr wholeStd (fun _ => some (.int 8)) (written [['&', 't', 'w'], ['?'], ['-'], ['2'],
      ['+'], ['4'], [':'], ['"', 'n', '\\', 't', '\\', '!', '"']]) = .ok ['2'] := by
  have digit : ∀ c : Char, c.isDigit = true →
      Writes wholeStd [c] (.int (parseInt false 10 [c])) := by
    intro c digit
    exact .decimal (List.cons_ne_nil _ _) fun d among => List.mem_singleton.1 among ▸ digit
  have name : ∀ c ∈ ['t', 'w'], isNameChar c = true := by
    intro c among
    fin_cases among <;> rfl
  have two : parseInt false 10 ['2'] = 2 := rfl
  have four : parseInt false 10 ['4'] = 4 := rfl
  have pieces : List.Forall₂ Piece [['n'], ['\\', 't'], ['\\', '!']] ['n', '\t', '!'] :=
    .cons (.plain (by decide) (by decide)) (.cons .tab (.cons (.kept (by decide)) .nil))
  have each : List.Forall₂ (Writes wholeStd) [['&', 't', 'w'], ['?'], ['-'], ['2'], ['+'], ['4'],
      [':'], ['"', 'n', '\\', 't', '\\', '!', '"']] [.option ['t', 'w'], .question, .minus, .int 2, .plus, .int 4,
      .colon, .str ['n', '\t', '!']] :=
    .cons (.option (List.cons_ne_nil _ _) name) (.cons (.symbol rfl) (.cons (.symbol rfl)
      (.cons (two ▸ digit '2' rfl) (.cons (.symbol rfl) (.cons (four ▸ digit '4' rfl)
      (.cons (.symbol rfl) (.cons (.double pieces) .nil)))))))
  have option : spells 199 .unary [Tok.option (F := Int) ['t', 'w']] (.option ['t', 'w']) :=
    Unary.primary (.option ['t', 'w'])
  have literal : ∀ n, spells 197 .unary [Tok.int (F := Int) n] (.int n) :=
    fun n => Unary.primary (.int n)
  have negative : spells 198 .unary [Tok.minus (F := Int), .int 2] (.negative (.int 2)) :=
    Unary.negative (literal 2)
  have last : spells 198 .unary [Tok.int (F := Int) 4] (.int 4) := Unary.primary (.int 4)
  have sum : Chained (Chained (spells 198 .unary) multiplicativeOp .binary) additiveOp .binary
      ([Tok.minus (F := Int), Tok.int 2] ++ Tok.plus :: [Tok.int 4])
      (.binary (.arith .add) (.negative (.int 2)) (.int 4)) :=
    Chained.more (Chained.one (Chained.one negative)) rfl (Chained.one last)
  have thenBranch : spells 199 .ternary [Tok.minus (F := Int), .int 2, .plus, .int 4]
      (.binary (.arith .add) (.negative (.int 2)) (.int 4)) :=
    Ternary.plain (Chained.one (Chained.one (AtMostOne.one (Chained.one sum))))
  have text : spells 198 .unary [Tok.str (F := Int) ['n', '\t', '!']] (.str ['n', '\t', '!']) :=
    Unary.primary (.str ['n', '\t', '!'])
  have elseBranch : spells 199 .ternary [Tok.str (F := Int) ['n', '\t', '!']] (.str ['n', '\t', '!']) :=
    Ternary.plain (levels_of_unary text)
  have whole : Spells ([Tok.option (F := Int) ['t', 'w']] ++ Tok.question ::
      ([Tok.minus, Tok.int 2, Tok.plus, Tok.int 4] ++ Tok.colon :: [Tok.str ['n', '\t', '!']])) _ :=
    Ternary.cond (levels_of_unary option) thenBranch elseBranch
  exact evalExpr_written (fun _ => some (.int 8)) each whole

end Writing

end Bemtvi.Core.Expr
