/-
Module: Bemtvi.Input.Termcodes
Purpose: Notation translated to the characters a terminal sends, which are parsed again as keys.  The
  keys come back exactly when each does by itself and no plain `<` meets the inside of a special form.
Trusted boundary: human-reviewed model of input.rs:364-420
Main exports: keyToTermcode, replaceTermcodes, Key.Returns, Closes, termcodes_return_iff
-/
import Bemtvi.Input.NotationLaws

namespace Bemtvi.Input

/-! ### Codes -/

/-- `key_to_termcode`. -/
def keyToTermcode (key : Key) : Option Char :=
  if key.alt then none
  else match key.code with
    | .char c =>
        if key.ctrl then
          let u := c.toUpper.toNat ^^^ 0x40
          if u ≤ 0x1f ∨ u = 0x7f then some (Char.ofNat u) else none
        else some c
    | code =>
        if key.ctrl || key.shift then none
        else match code with
          | .enter => some '\r'
          | .esc => some (Char.ofNat 0x1b)
          | .tab => some '\t'
          | .backspace => some (Char.ofNat 0x08)
          | _ => none

/-- What a key is written as. -/
def termcodeText (key : Key) : List Char :=
  (keyToTermcode key).elim (keyToNotation key) fun c => [c]

/-- `replace_termcodes`. -/
def replaceTermcodes (input : List Char) : List Char :=
  (parseKeys input).flatMap termcodeText

/-! ### Names without a `<` -/

variable {name : List Char} {key : Key} {c : Char} {keys : List Key}

theorem namedCode_open (less : '<' ∈ name) : namedCode name = none := by
  unfold namedCode
  split
  all_goals first
    | rfl
    | next same =>
        rw [← String.toList_ofList (l := name), same] at less
        exact absurd less (by decide)

theorem mouseName_open (less : '<' ∈ name) : mouseName name = none := by
  unfold mouseName
  split
  all_goals first
    | rfl
    | next same =>
        rw [← String.toList_ofList (l := name), same] at less
        exact absurd less (by decide)

theorem open_lower (less : '<' ∈ name) : '<' ∈ name.map Char.toLower :=
  List.mem_map.2 ⟨'<', less, rfl⟩

theorem parseMouseNotation_open (less : '<' ∈ name) : parseMouseNotation name = none := by
  have lower := open_lower less
  unfold parseMouseNotation
  generalize name.map Char.toLower = lowered at lower
  split
  · rfl
  · next clicks rest counted =>
    have still : '<' ∈ rest := by
      unfold mouseClicks splitDash at counted
      split at counted
      · next digits after dashed =>
        split at dashed
        · cases dashed
          split at counted
          · next number =>
            obtain ⟨count, _, same⟩ := Option.map_eq_some_iff.1 counted
            cases same
            have whole := List.takeWhile_append_dropWhile (p := (· ≠ '-')) (l := lowered)
            rw [← whole] at lower
            rcases List.mem_append.1 lower with front | back
            · have digit := List.all_eq_true.1 number.2 '<' front
              cases digit
            · rcases tail : lowered.dropWhile (· ≠ '-') with _ | ⟨first, more⟩
              · rw [tail] at back
                cases back
              · have some_left : lowered.dropWhile (· ≠ '-') ≠ [] := by
                  rw [tail]
                  exact List.cons_ne_nil _ _
                have dash := List.head_dropWhile_not (· ≠ '-') some_left
                rw [tail] at back
                simp only [tail, List.head_cons] at dash
                rcases List.mem_cons.1 back with rfl | back
                · cases dash
                · exact back
          · cases counted
            exact lower
        · cases dashed
      · cases counted
        exact lower
    rw [mouseName_open still]
    split
    · rfl
    · rfl

theorem parseCode_open (less : '<' ∈ name) (long : 1 < name.length) : parseCode name = none := by
  have lower := open_lower less
  have length_eq : (name.map Char.toLower).length = name.length := List.length_map _
  unfold parseCode
  generalize name.map Char.toLower = lowered at lower length_eq
  simp only [namedCode_open lower]
  split
  · rfl
  · simp only [List.length_singleton] at length_eq
    omega
  · next digits =>
    rw [if_neg]
    intro number
    rcases List.mem_cons.1 lower with same | member
    · cases same
    · have digit := List.all_eq_true.1 number '<' member
      cases digit
  · rfl

/-- Stripping modifiers stops at a `<`. -/
theorem stripModifiers_open (held : Modifiers) (front : List Char) (c : Char) (rest : List Char) :
    ∃ left, (stripModifiers held (front ++ '<' :: c :: rest)).2 = left ++ '<' :: c :: rest := by
  induction front using List.twoStepInduction generalizing held with
  | nil =>
      use []
      by_cases dash : c = '-'
      · subst dash
        rfl
      · simp [stripModifiers, dash]
  | singleton letter =>
      use [letter]
      simp [stripModifiers]
  | cons_cons letter second front ih _ =>
      by_cases dash : second = '-'
      · subst dash
        simp only [List.cons_append, stripModifiers]
        split
        · next held' _ => exact ih held'
        · exact ⟨letter :: '-' :: front, rfl⟩
      · use letter :: second :: front
        simp [stripModifiers, dash]

/-- A `<` with something behind it is inside no special form. -/
theorem parseSpecial_open (front : List Char) (c : Char) (rest : List Char) :
    parseSpecial (front ++ '<' :: c :: rest) = none := by
  obtain ⟨left, stripped⟩ := stripModifiers_open .none front c rest
  have less : '<' ∈ left ++ '<' :: c :: rest := by simp
  have long : 1 < (left ++ '<' :: c :: rest).length := by simp; omega
  unfold parseSpecial
  simp only [stripped, parseName, parseMouseNotation_open less, parseCode_open less long,
    Option.map_none]

/-! ### Keys that come back -/

/-- A key with a code is not held with Shift or Command, is not `<C-?>` and not a control character;
one without a code has a name or is not held with Shift. -/
def Key.Returns (key : Key) : Prop :=
  if (keyToTermcode key).isSome then
    key.cmd = false ∧ key.shift = false ∧
      ∀ c, key.code = .char c → if key.ctrl then c ≠ '?' else 0x1f < c.toNat
  else key.stem.1 = true ∨ key.shift = false

/-- The keys go on with the inside of a special form, each as one character, and a plain `>`. -/
def Closes (keys : List Key) : Prop :=
  ∃ inner greater rest codes, keys = inner ++ greater :: rest ∧
    inner.mapM keyToTermcode = some codes ∧ '>' ∉ codes ∧
    keyToTermcode greater = some '>' ∧ (parseSpecial codes).isSome = true

/-- No key written as `<` has the rest of a special form behind it. -/
def NoForm (keys : List Key) : Prop :=
  ∀ front less rest, keys = front ++ less :: rest → keyToTermcode less = some '<' → ¬ Closes rest

/-- The key that a written key is read as. -/
def Key.returned (key : Key) : Key :=
  (keyToTermcode key).elim (canonicalCtrlAlias key.reread) literalKey

/-- What every key of `parse_keys` is. -/
structure Folded (key : Key) : Prop where
  parsed : Parsed key
  alias_eq : canonicalCtrlAlias key = key

theorem canonicalCtrlAlias_cases (key : Key) :
    canonicalCtrlAlias key = key ∨ ∃ code, canonicalCtrlAlias key = .new code ∧
      (code = .tab ∨ code = .enter ∨ code = .esc ∨ code = .backspace) := by
  unfold canonicalCtrlAlias
  split
  · exact .inl rfl
  · split
    · exact .inr ⟨_, rfl, .inl rfl⟩
    · exact .inr ⟨_, rfl, .inr (.inl rfl)⟩
    · exact .inr ⟨_, rfl, .inr (.inr (.inl rfl))⟩
    · exact .inr ⟨_, rfl, .inr (.inr (.inr rfl))⟩
    · exact .inl rfl

theorem folded_alias (parsed : Parsed key) : Folded (canonicalCtrlAlias key) := by
  rcases canonicalCtrlAlias_cases key with same | ⟨code, same, named⟩
  · rw [same]
    exact ⟨parsed, same⟩
  · rw [same]
    constructor
    · constructor
      · intro c its _
        rcases named with rfl | rfl | rfl | rfl <;> cases its
      · intro button clicks kind its
        rcases named with rfl | rfl | rfl | rfl <;> cases its
    · rfl

theorem folded_of_mem {input : List Char} (member : key ∈ parseKeys input) : Folded key := by
  rw [parseKeys_eq] at member
  obtain ⟨raw, its, rfl⟩ := List.mem_map.1 member
  exact folded_alias (parsed_of_mem its)

theorem canonicalCtrlAlias_shift (shift : key.shift = false) :
    (canonicalCtrlAlias key).shift = false := by
  rcases canonicalCtrlAlias_cases key with same | ⟨code, same, _⟩
  · rw [same, shift]
  · rw [same]
    rfl

/-- A key without a code is printed as a special form. -/
theorem wrapped_of_none (none_ : keyToTermcode key = none) :
    key.stem.1 = true ∨ (key.ctrl || key.alt || key.cmd) = true := by
  by_contra bare
  simp only [not_or, Bool.not_eq_true] at bare
  obtain ⟨c, code, -⟩ := unnamed_char bare.1
  simp only [Bool.or_eq_false_iff] at bare
  simp [keyToTermcode, code, bare] at none_

theorem returned_of_none (folded : Folded key) (none_ : keyToTermcode key = none) :
    key.returned = key ↔ key.Returns := by
  simp only [Key.returned, none_, Option.elim_none, Key.Returns, Option.isSome_none,
    Bool.false_eq_true, if_false]
  constructor
  · intro same
    by_contra lost
    simp only [not_or, Bool.not_eq_true, Bool.not_eq_false] at lost
    obtain ⟨unnamed, shift⟩ := lost
    have held : (key.ctrl || key.alt || key.cmd) = true := by
      rcases wrapped_of_none none_ with named | held
      · rw [unnamed] at named
        cases named
      · exact held
    have dropped : key.reread.shift = false := by
      simp [Key.reread, unnamed, held]
    have := canonicalCtrlAlias_shift dropped
    rw [same, shift] at this
    cases this
  · intro legible
    have reread : key.reread = key := by
      apply (reread_eq_iff key).2
      rcases legible with named | shift
      · exact .inl named
      · rcases wrapped_of_none none_ with named | held
        · exact .inl named
        · exact .inr ⟨shift, .inl held⟩
    rw [reread, folded.alias_eq]

/-- The characters that Control makes a code of, with what the code is read as. -/
theorem control_codes : ∀ n : Fin 128,
    (Char.ofNat n).toLower = Char.ofNat n →
    (Char.ofNat n).toUpper.toNat ^^^ 0x40 ≤ 0x1f ∨ (Char.ofNat n).toUpper.toNat ^^^ 0x40 = 0x7f →
    literalKey (Char.ofNat ((Char.ofNat n).toUpper.toNat ^^^ 0x40)) =
      if Char.ofNat n = '?' then .char (Char.ofNat 0x7f)
      else canonicalCtrlAlias (.ctrlChar (Char.ofNat n)) := by
  decide +kernel

/-- Control makes a code of ASCII characters only. -/
theorem ascii_of_code (code : c.toUpper.toNat ^^^ 0x40 ≤ 0x1f ∨ c.toUpper.toNat ^^^ 0x40 = 0x7f) :
    c.toNat < 128 := by
  by_contra big
  have same : c.toUpper = c := by
    unfold Char.toUpper
    split
    · next small =>
      exfalso
      have le := UInt32.le_iff_toNat_le.1 small.2
      have : c.toNat ≤ 122 := le
      omega
    · rfl
  rw [same] at code
  have high : (c.toNat ^^^ 0x40) >>> 7 = c.toNat >>> 7 := by
    rw [Nat.shiftRight_xor_distrib]
    simp
  rw [Nat.shiftRight_eq_div_pow, Nat.shiftRight_eq_div_pow] at high
  omega

theorem returned_of_ctrl (folded : Folded key) (code : key.code = .char c)
    (ctrl : key.ctrl = true) (alt : key.alt = false) (some_ : (keyToTermcode key).isSome = true) :
    key.returned = key ↔ key.Returns := by
  have lower := folded.parsed.lower c code (.inl ctrl)
  have control : c.toUpper.toNat ^^^ 0x40 ≤ 0x1f ∨ c.toUpper.toNat ^^^ 0x40 = 0x7f := by
    by_contra none_
    simp [keyToTermcode, alt, code, ctrl, none_] at some_
  have codes := control_codes ⟨c.toNat, ascii_of_code control⟩
  simp only [Char.ofNat_toNat] at codes
  have coded : keyToTermcode key = some (Char.ofNat (c.toUpper.toNat ^^^ 0x40)) := by
    simp [keyToTermcode, alt, code, ctrl, control]
  rw [Key.returned, coded, Option.elim_some, codes lower control]
  simp only [Key.Returns, some_, if_true, code, ctrl, KeyCode.char.injEq, forall_eq']
  obtain ⟨key_code, key_ctrl, key_alt, shift, cmd⟩ := key
  simp only at code ctrl alt
  subst code ctrl alt
  have alias_eq := folded.alias_eq
  by_cases asks : c = '?'
  · simp [asks, Key.char, Key.new]
  · rw [if_neg asks]
    cases shift with
    | true =>
        constructor
        · intro same
          have dropped : (canonicalCtrlAlias (.ctrlChar c)).shift = false :=
            canonicalCtrlAlias_shift rfl
          rw [same] at dropped
          cases dropped
        · intro returns
          cases returns.2.1
    | false =>
        have plain : canonicalCtrlAlias (.ctrlChar c) = .ctrlChar c := by
          by_contra differs
          obtain ⟨-, -, -, aliased⟩ := (alias_ne_iff _).1 differs
          exact (alias_ne_iff ⟨.char c, true, false, false, cmd⟩).2 ⟨rfl, rfl, rfl, aliased⟩ alias_eq
        rw [plain]
        cases cmd with
        | true => simp [Key.ctrlChar, Key.new]
        | false => simp [Key.ctrlChar, Key.new, asks]

theorem literalKey_cmd (c : Char) : (literalKey c).cmd = false := by
  have every : ∀ n : Fin 32, (literalKey (Char.ofNat n)).cmd = false := by decide
  by_cases printable : 0x1f < c.toNat
  · rw [literalKey_eq_iff.2 printable]
    rfl
  · have its := every ⟨c.toNat, by omega⟩
    rw [Char.ofNat_toNat] at its
    exact its

theorem returned_of_char (code : key.code = .char c) (ctrl : key.ctrl = false)
    (alt : key.alt = false) : key.returned = key ↔ key.Returns := by
  have coded : keyToTermcode key = some c := by simp [keyToTermcode, alt, code, ctrl]
  rw [Key.returned, coded, Option.elim_some]
  simp only [Key.Returns, coded, Option.isSome_some, if_true, code, ctrl, KeyCode.char.injEq,
    forall_eq', Bool.false_eq_true, if_false]
  have bare : key.cmd = false → key.shift = false → key = .char c := by
    intro cmd shift
    obtain ⟨code', ctrl', alt', shift', cmd'⟩ := key
    simp_all [Key.char, Key.new]
  constructor
  · intro same
    have cmd : key.cmd = false := by
      rw [← same]
      exact literalKey_cmd c
    have shift : key.shift = false := by
      rw [← same]
      exact literalKey_shift c
    exact ⟨cmd, shift, literalKey_eq_iff.1 (same.trans (bare cmd shift))⟩
  · intro returns
    rw [bare returns.1 returns.2.1]
    exact literalKey_eq_iff.2 returns.2.2

/-- The four named keys that have codes. -/
theorem named_code (coded : keyToTermcode key = some c) (other : ∀ c, key.code ≠ .char c) :
    literalKey c = .new key.code ∧ key.ctrl = false ∧ key.alt = false ∧ key.shift = false := by
  obtain ⟨code, ctrl, alt, shift, cmd⟩ := key
  cases alt with
  | true => cases coded
  | false =>
      cases code with
      | char c => exact absurd rfl (other c)
      | _ =>
          simp only [keyToTermcode, Bool.false_eq_true, if_false] at coded
          split at coded
          · cases coded
          · next bare =>
            simp only [Bool.or_eq_true, not_or, Bool.not_eq_true] at bare
            cases coded
            try exact ⟨rfl, bare.1, rfl, bare.2⟩

theorem returned_eq_iff (folded : Folded key) : key.returned = key ↔ key.Returns := by
  rcases coded : keyToTermcode key with _ | c
  · exact returned_of_none folded coded
  · have alt : key.alt = false := by
      by_contra alt
      simp [keyToTermcode, alt] at coded
    by_cases isChar : ∃ c, key.code = .char c
    · obtain ⟨c', code⟩ := isChar
      cases ctrl : key.ctrl with
      | true => exact returned_of_ctrl folded code ctrl alt (by simp [coded])
      | false => exact returned_of_char code ctrl alt
    · simp only [not_exists] at isChar
      obtain ⟨literal, ctrl, -, shift⟩ := named_code coded isChar
      simp only [Key.returned, Key.Returns, coded, Option.elim_some, Option.isSome_some, if_true,
        literal, shift, isChar, false_implies, implies_true, and_true]
      obtain ⟨code, ctrl', alt', shift', cmd⟩ := key
      simp only at ctrl alt shift
      subst ctrl alt shift
      simp [Key.new, eq_comm]

/-! ### Written keys, parsed -/

theorem parse_termcodeText (folded : Folded key) (rest : List Char)
    (other : keyToTermcode key ≠ some '<') :
    parseKeys (termcodeText key ++ rest) = key.returned :: parseKeys rest := by
  rcases coded : keyToTermcode key with _ | c
  · rw [parseKeys_eq, parseKeys_eq]
    simp only [termcodeText, Key.returned, coded, Option.elim_none]
    rw [ parse_notation folded.parsed, List.map_cons]
  · have not_less : c ≠ '<' := by
      rintro rfl
      exact other coded
    simp only [termcodeText, Key.returned, coded, Option.elim_some, List.singleton_append]
    exact parse_cons_ne true not_less rest

/-- The inside of a printed special form. -/
theorem termcodeText_of_none (folded : Folded key) (none_ : keyToTermcode key = none) :
    ∃ first inside, termcodeText key = '<' :: first :: (inside ++ ['>']) ∧
      '>' ∉ first :: inside := by
  have wrapped := wrapped_of_none none_
  have closed : '>' ∉ modifierText key.ctrl key.alt key.cmd (key.shift && key.stem.1) ++
      key.stem.2 := by
    rw [List.mem_append, not_or]
    constructor
    · exact modifierText_closed _ _ _ _
    · cases named : key.stem.1 with
      | true => exact (spells_stem folded.parsed named).closed
      | false =>
          obtain ⟨c, -, base, -, greater⟩ := unnamed_char named
          rw [base, List.mem_singleton]
          intro same
          apply greater _ same.symm
          rcases wrapped with named' | held
          · rw [named] at named'
            cases named'
          · exact held
  have text : termcodeText key = '<' :: (modifierText key.ctrl key.alt key.cmd
      (key.shift && key.stem.1) ++ key.stem.2 ++ ['>']) := by
    rw [termcodeText, none_, Option.elim_none, keyToNotation_form wrapped]
  have filled : key.stem.2 ≠ [] := by
    cases named : key.stem.1 with
    | true =>
        intro empty
        have coded := (spells_stem folded.parsed named).coded
        rw [empty] at coded
        cases coded
    | false =>
        obtain ⟨c, -, base, -⟩ := unnamed_char named
        simp [base]
  have filled : modifierText key.ctrl key.alt key.cmd (key.shift && key.stem.1) ++ key.stem.2 ≠ [] :=
    fun empty => filled (List.append_eq_nil_iff.1 empty).2
  obtain ⟨first, inside, whole⟩ := List.exists_cons_of_ne_nil filled
  rw [whole] at text closed
  exact ⟨first, inside, text, closed⟩

/-- A special form that starts among written keys ends at a plain `>`, and its inside is characters
that keys are written as. -/
theorem specialForm_texts (folded : ∀ key ∈ keys, Folded key) (front : List Char)
    {rest : List Char} (unclosed : '>' ∉ front) {form : Key}
    (found : specialForm (front ++ keys.flatMap termcodeText) = some (form, rest)) :
    ∃ inner greater post codes, keys = inner ++ greater :: post ∧
      inner.mapM keyToTermcode = some codes ∧ '>' ∉ codes ∧
      keyToTermcode greater = some '>' ∧ parseSpecial (front ++ codes) = some form ∧
      rest = post.flatMap termcodeText := by
  induction keys generalizing front with
  | nil => simp [specialForm, unclosed] at found
  | cons key keys ih =>
      have folded_rest := fun other member => folded other (List.mem_cons_of_mem key member)
      rw [List.flatMap_cons] at found
      rcases coded : keyToTermcode key with _ | c
      · obtain ⟨first, inside, text, closed⟩ :=
          termcodeText_of_none (folded key List.mem_cons_self) coded
        have open_ : '>' ∉ front ++ '<' :: first :: inside := by
          simp only [List.mem_cons, not_or] at closed
          simp [unclosed, closed]
        have shape : front ++ (termcodeText key ++ keys.flatMap termcodeText) =
            (front ++ '<' :: first :: inside) ++ '>' :: keys.flatMap termcodeText := by
          simp [text]
        rw [shape, specialForm_closed open_, parseSpecial_open] at found
        cases found
      · have text : termcodeText key = [c] := by simp [termcodeText, coded]
        rw [text] at found
        by_cases greater : c = '>'
        · subst greater
          rw [List.singleton_append, specialForm_closed unclosed] at found
          obtain ⟨form', parsed, same⟩ := Option.map_eq_some_iff.1 found
          simp only [Prod.mk.injEq] at same
          obtain ⟨rfl, rfl⟩ := same
          exact ⟨[], key, keys, [], rfl, rfl, List.not_mem_nil, coded, by simpa using parsed, rfl⟩
        · rw [← List.append_assoc] at found
          have unclosed' : '>' ∉ front ++ [c] := by simp [unclosed, Ne.symm greater]
          obtain ⟨inner, last, post, codes, split, mapped, plain, lastly, parsed, left⟩ :=
            ih folded_rest _ unclosed' found
          refine ⟨key :: inner, last, post, c :: codes, ?_, ?_, ?_, lastly, ?_, left⟩
          · rw [split, List.cons_append]
          · simp [List.mapM_cons, coded, mapped]
          · simp [plain, Ne.symm greater]
          · simpa using parsed

theorem flatMap_codes {inner : List Key} {codes : List Char}
    (mapped : inner.mapM keyToTermcode = some codes) : inner.flatMap termcodeText = codes := by
  induction inner generalizing codes with
  | nil =>
      cases mapped
      rfl
  | cons key inner ih =>
      rw [List.mapM_cons] at mapped
      obtain ⟨c, coded, later⟩ := Option.bind_eq_some_iff.1 mapped
      obtain ⟨rest, mapped_rest, same⟩ := Option.bind_eq_some_iff.1 later
      cases same
      rw [List.flatMap_cons, ih mapped_rest, termcodeText, coded]
      rfl

/-- A `<` takes the written keys behind it for a special form exactly when they go on with one. -/
theorem specialForm_isSome_iff (folded : ∀ key ∈ keys, Folded key) :
    (specialForm (keys.flatMap termcodeText)).isSome = true ↔ Closes keys := by
  constructor
  · intro some_
    obtain ⟨⟨form, rest⟩, found⟩ := Option.isSome_iff_exists.1 some_
    obtain ⟨inner, greater, post, codes, split, mapped, plain, last, parsed, -⟩ :=
      specialForm_texts folded [] List.not_mem_nil found
    exact ⟨inner, greater, post, codes, split, mapped, plain, last, by simp_all⟩
  · rintro ⟨inner, greater, post, codes, rfl, mapped, plain, last, parsed⟩
    have text : termcodeText greater = ['>'] := by simp [termcodeText, last]
    rw [List.flatMap_append, List.flatMap_cons, flatMap_codes mapped, text, List.singleton_append,
      specialForm_closed plain, Option.isSome_map]
    exact parsed

/-! ### What comes back -/

/-- No more keys are read than were written, and fewer once a special form arises. -/
theorem parse_texts_length (folded : ∀ key ∈ keys, Folded key) :
    (parseKeys (keys.flatMap termcodeText)).length ≤ keys.length := by
  generalize count_eq : keys.length = count
  induction count using Nat.strong_induction_on generalizing keys with
  | _ count ih =>
      rcases keys with _ | ⟨key, keys⟩
      · simp [parseKeys, parseKeysInner]
      · have folded_rest := fun other member => folded other (List.mem_cons_of_mem key member)
        rw [List.length_cons] at count_eq
        have shorter := ih keys.length (by omega) folded_rest rfl
        rw [List.flatMap_cons]
        by_cases less : keyToTermcode key = some '<'
        · have text : termcodeText key = ['<'] := by simp [termcodeText, less]
          rw [text, List.singleton_append, parseKeys]
          rcases found : specialForm (keys.flatMap termcodeText) with _ | ⟨form, rest⟩
          · rw [parse_unclosed found, List.length_cons]
            unfold parseKeys at shorter
            omega
          · obtain ⟨inner, greater, post, codes, rfl, -, -, -, -, rfl⟩ :=
              specialForm_texts folded_rest [] List.not_mem_nil found
            have folded_post : ∀ other ∈ post, Folded other := fun other member =>
              folded_rest other (List.mem_append_right _ (List.mem_cons_of_mem _ member))
            simp only [List.length_append, List.length_cons] at count_eq
            have fewer := ih post.length (by omega) folded_post rfl
            rw [parse_special found, List.length_cons]
            unfold parseKeys at fewer
            omega
        · rw [parse_termcodeText (folded key List.mem_cons_self) _ less, List.length_cons]
          omega

theorem noForm_cons : NoForm (key :: keys) ↔
      (keyToTermcode key = some '<' → ¬ Closes keys) ∧ NoForm keys := by
  constructor
  · intro noForm
    constructor
    · exact noForm [] key keys rfl
    · rintro front less rest rfl
      exact noForm (key :: front) less rest rfl
  · rintro ⟨here, later⟩ front less rest split
    rcases front with _ | ⟨first, front⟩
    · cases split
      exact here
    · rw [List.cons_append, List.cons.injEq] at split
      exact later front less rest split.2

/-- The written keys are read as those keys exactly when each returns and no special form arises. -/
theorem parse_texts_iff (folded : ∀ key ∈ keys, Folded key) :
    parseKeys (keys.flatMap termcodeText) = keys ↔
      (∀ key ∈ keys, key.Returns) ∧ NoForm keys := by
  induction keys with
  | nil => simp [parseKeys, parseKeysInner, NoForm]
  | cons key keys ih =>
      have folded_rest := fun other member => folded other (List.mem_cons_of_mem key member)
      have folded_key := folded key List.mem_cons_self
      rw [noForm_cons, List.forall_mem_cons, ← returned_eq_iff folded_key, List.flatMap_cons]
      by_cases less : keyToTermcode key = some '<'
      · have text : termcodeText key = ['<'] := by simp [termcodeText, less]
        have returned : key.returned = .char '<' := by
          rw [Key.returned, less]
          rfl
        rw [text, List.singleton_append, returned]
        rcases found : specialForm (keys.flatMap termcodeText) with _ | ⟨form, rest⟩
        · have unclosed : ¬ Closes keys := by
            rw [← specialForm_isSome_iff folded_rest, found]
            simp
          rw [parseKeys, parse_unclosed found, List.cons.injEq]
          have ih' := ih folded_rest
          unfold parseKeys at ih'
          rw [ih']
          simp only [unclosed, not_false_eq_true, implies_true, true_and, and_assoc]
        · -- the form takes three keys or more for one, so the keys cannot be the same
          have closes : Closes keys := by
            rw [← specialForm_isSome_iff folded_rest, found]
            rfl
          constructor
          · intro same
            exfalso
            obtain ⟨inner, greater, post, codes, rfl, -, -, -, -, rfl⟩ :=
              specialForm_texts folded_rest [] List.not_mem_nil found
            have folded_post : ∀ other ∈ post, Folded other := fun other member =>
              folded_rest other (List.mem_append_right _ (List.mem_cons_of_mem _ member))
            have fewer := parse_texts_length folded_post
            have lengths := congrArg List.length same
            rw [parseKeys, parse_special found] at lengths
            unfold parseKeys at fewer
            simp only [List.length_cons, List.length_append] at lengths
            omega
          · rintro ⟨-, here, -⟩
            exact absurd closes (here less)
      · rw [parse_termcodeText folded_key _ less, List.cons.injEq, ih folded_rest]
        simp only [less, false_implies, true_and, and_assoc]

/-- The keys of a string come back from its codes exactly when each key returns and no `<` among them
has the rest of a special form behind it. -/
theorem termcodes_return_iff (input : List Char) :
    parseKeys (replaceTermcodes input) = parseKeys input ↔
      (∀ key ∈ parseKeys input, key.Returns) ∧ NoForm (parseKeys input) :=
  parse_texts_iff fun _ => folded_of_mem

/-- A `<` by name joins what follows it, Command and Shift are dropped, and `<C-?>` is left as the
character it is sent as. -/
theorem termcodes_lose_keys :
    parseKeys (replaceTermcodes "<lt>C-a>".toList) ≠ parseKeys "<lt>C-a>".toList ∧
      parseKeys (replaceTermcodes "<D-s>".toList) ≠ parseKeys "<D-s>".toList ∧
      parseKeys (replaceTermcodes "<C-S-a>".toList) ≠ parseKeys "<C-S-a>".toList ∧
      parseKeys (replaceTermcodes "<C-?>".toList) ≠ parseKeys "<C-?>".toList := by
  decide +kernel

end Bemtvi.Input
