/-
Module: Bemtvi.Input.NotationLaws
Purpose: What the notation of a key parses to.  A printed key is read as one key whatever follows
  it, and that key is the printed one but for the shift of a character and the control characters
  that a special form can spell.
Trusted boundary: none
Main exports: Spells, parse_form, Parsed, parsed_of_mem, parse_notation, Legible,
  notation_round_trips
-/
import Bemtvi.Input.Notation

namespace Bemtvi.Input

/-! ### Special forms -/

/-- The text of the modifiers, in the printer's order. -/
def modifierText (ctrl alt cmd shift : Bool) : List Char :=
  (if ctrl then "C-".toList else []) ++ (if alt then "A-".toList else []) ++
    (if cmd then "D-".toList else []) ++ (if shift then "S-".toList else [])

/-- The name stands for the code, and nothing in it is taken for a modifier or for the end. -/
structure Spells (name : List Char) (code : KeyCode) : Prop where
  plain : ∀ held, stripModifiers held name = (held, name)
  closed : '>' ∉ name
  coded : parseName name = some code

variable {name inner input rest : List Char} {c : Char} {key : Key} {button : MouseButton}
  {clicks : U8} {kind : MouseKind}

theorem stripModifiers_text (plain : ∀ held, stripModifiers held name = (held, name))
    (ctrl alt cmd shift : Bool) : stripModifiers .none (modifierText ctrl alt cmd shift ++ name) =
      (⟨ctrl, shift, alt, cmd⟩, name) := by
  cases ctrl <;> cases alt <;> cases cmd <;> cases shift <;> exact plain _

theorem modifierText_closed (ctrl alt cmd shift : Bool) :
    '>' ∉ modifierText ctrl alt cmd shift := by
  cases ctrl <;> cases alt <;> cases cmd <;> cases shift <;> decide

/-- The form ends at the first `>`. -/
theorem specialForm_closed (closed : '>' ∉ inner) (rest : List Char) :
    specialForm (inner ++ '>' :: rest) = (parseSpecial inner).map fun key => (key, rest) := by
  have inside : ∀ c ∈ inner, decide (c ≠ '>') = true := by
    intro c member
    simp only [decide_eq_true_eq]
    rintro rfl
    exact closed member
  have taken : (inner ++ '>' :: rest).takeWhile (· ≠ '>') = inner := by
    rw [List.takeWhile_append_of_pos inside]
    simp
  have dropped : (inner ++ '>' :: rest).dropWhile (· ≠ '>') = '>' :: rest := by
    rw [List.dropWhile_append_of_pos inside]
    simp
  simp only [specialForm, taken, dropped, List.drop_one, List.tail_cons]
  simp

theorem parse_cons_ne (fold_aliases : Bool) (other : c ≠ '<') (rest : List Char) :
    parseKeysInner fold_aliases (c :: rest) =
      (keyFromControlByte c).getD (.char c) :: parseKeysInner fold_aliases rest := by
  rw [parseKeysInner, if_neg other]

theorem parse_special {fold_aliases : Bool} (found : specialForm input = some (key, rest)) :
    parseKeysInner fold_aliases ('<' :: input) =
      (if fold_aliases then canonicalCtrlAlias key else key) ::
        parseKeysInner fold_aliases rest := by
  rw [parseKeysInner, if_pos rfl]
  split
  · next found' =>
      rw [found] at found'
      cases found'
      rfl
  · next found' =>
      rw [found] at found'
      cases found'

theorem parse_unclosed {fold_aliases : Bool} (nothing : specialForm input = none) :
    parseKeysInner fold_aliases ('<' :: input) =
      .char '<' :: parseKeysInner fold_aliases input := by
  rw [parseKeysInner, if_pos rfl]
  split
  · next found =>
      rw [nothing] at found
      cases found
  · rfl

/-- A special form is read as one key with its modifiers. -/
theorem parse_form {code : KeyCode} (spells : Spells name code)
    (fold_aliases ctrl alt cmd shift : Bool) (rest : List Char) : parseKeysInner fold_aliases
        ('<' :: (modifierText ctrl alt cmd shift ++ name ++ '>' :: rest)) =
      (if fold_aliases then canonicalCtrlAlias ⟨code, ctrl, alt, shift, cmd⟩
        else ⟨code, ctrl, alt, shift, cmd⟩) :: parseKeysInner fold_aliases rest := by
  have closed : '>' ∉ modifierText ctrl alt cmd shift ++ name := by
    rw [List.mem_append, not_or]
    exact ⟨modifierText_closed ctrl alt cmd shift, spells.closed⟩
  apply parse_special
  rw [specialForm_closed closed, parseSpecial, stripModifiers_text spells.plain]
  simp [spells.coded]

/-! ### Names -/

theorem single_ne {literal : String} (long : literal.toList.length ≠ 1) (c : Char) :
    String.ofList [c] ≠ literal := by
  rintro rfl
  simp at long

theorem namedCode_single (c : Char) : namedCode [c] = none := by
  unfold namedCode
  split
  all_goals first | rfl | exact absurd ‹_› (single_ne (by decide) c)

theorem mouseName_single (c : Char) : mouseName [c] = none := by
  unfold mouseName
  split
  all_goals first | rfl | exact absurd ‹_› (single_ne (by decide) c)

theorem parseMouseNotation_single (c : Char) : parseMouseNotation [c] = none := by
  have name : mouseClicks [c.toLower] = some (1, [c.toLower]) := by
    unfold mouseClicks splitDash
    by_cases dash : '-' = c.toLower
    · simp [← dash]
    · simp [dash]
  simp [parseMouseNotation, name, mouseName_single]

/-- A single character spells itself, in lower case. -/
theorem spells_char (open_ : c ≠ '>') : Spells [c] (.char c.toLower) := by
  constructor
  · intro held
    rfl
  · simp [open_.symm]
  · simp [parseName, parseMouseNotation_single, parseCode, namedCode_single]

theorem stripModifiers_f (held : Modifiers) (digits : List Char) :
    stripModifiers held ('F' :: digits) = (held, 'F' :: digits) := by
  cases digits with
  | nil => rfl
  | cons c digits =>
      by_cases dash : c = '-'
      · subst dash
        rfl
      · simp [stripModifiers, dash]

theorem function_ne {literal : String} (other : literal.toList.head? ≠ some 'f') (digits : List Char) :
    String.ofList ('f' :: digits) ≠ literal := by
  rintro rfl
  simp at other

theorem namedCode_function (digits : List Char) : namedCode ('f' :: digits) = none := by
  unfold namedCode
  split
  all_goals first | rfl | exact absurd ‹_› (function_ne (by decide) digits)

theorem mouseName_function (digits : List Char) : mouseName ('f' :: digits) = none := by
  unfold mouseName
  split
  all_goals first | rfl | exact absurd ‹_› (function_ne (by decide) digits)

/-- `F1` and on. -/
theorem spells_function (n : U8) : Spells ('F' :: Nat.toDigits 10 n) (.function n) := by
  have every : ∀ n : U8, '>' ∉ 'F' :: Nat.toDigits 10 n ∧ '-' ∉ 'f' :: Nat.toDigits 10 n ∧
      (Nat.toDigits 10 n).map Char.toLower = Nat.toDigits 10 n ∧ Nat.toDigits 10 n ≠ [] ∧
      (Nat.toDigits 10 n).all Char.isDigit = true ∧ parseU8 (Nat.toDigits 10 n) = some n := by
    decide +kernel
  obtain ⟨closed, dashless, lowered, some_digits, digits, valued⟩ := every n
  have lower : ('F' :: Nat.toDigits 10 n).map Char.toLower = 'f' :: Nat.toDigits 10 n := by
    rw [List.map_cons, lowered]
    rfl
  have gesture : parseMouseNotation ('F' :: Nat.toDigits 10 n) = none := by
    simp [parseMouseNotation, mouseClicks, splitDash, lower, dashless, mouseName_function]
  have coded : parseCode ('F' :: Nat.toDigits 10 n) = some (.function n) := by
    obtain ⟨c, cs, spelled⟩ := List.exists_cons_of_ne_nil some_digits
    rw [parseCode, lower, namedCode_function, spelled]
    rw [spelled] at digits valued
    simp only [digits, valued, if_true, Option.map_some]
  exact ⟨fun held => stripModifiers_f held _, closed, by rw [parseName, gesture]; exact coded⟩

/-! ### The keys that parsing makes -/

/-- What every parsed key is. -/
structure Parsed (key : Key) : Prop where
  /-- A modified character is no capital. -/
  lower : ∀ c, key.code = .char c → key.ctrl ∨ key.alt ∨ key.cmd → c.toLower = c
  mouse : ∀ button clicks kind, key.code = .mouse button clicks kind →
    (button = .left ∨ button = .right ∨ button = .middle) ∧ 0 < clicks ∧ clicks ≤ 4 ∧
      (kind = .press ∨ clicks = 1)

theorem namedCode_lower (named : namedCode name = some (.char c)) : c.toLower = c := by
  unfold namedCode at named
  split at named
  all_goals cases named
  all_goals rfl

theorem namedCode_mouse : namedCode name ≠ some (.mouse button clicks kind) := by
  unfold namedCode
  split
  all_goals simp

theorem parseCode_lower (coded : parseCode rest = some (.char c)) : c.toLower = c := by
  unfold parseCode at coded
  cases named : namedCode (rest.map Char.toLower) with
  | some code =>
      simp only [named, Option.some.injEq] at coded
      subst coded
      exact namedCode_lower named
  | none =>
      simp only [named] at coded
      split at coded
      · cases coded
      · next single lowered =>
          cases coded
          rcases List.map_eq_singleton_iff.1 lowered with ⟨first, -, rfl⟩
          exact first.toLower_toLower_eq_toLower
      · split at coded
        · rcases Option.map_eq_some_iff.1 coded with ⟨n, -, same⟩
          cases same
        · cases coded
      · cases coded

theorem parseCode_mouse : parseCode rest ≠ some (.mouse button clicks kind) := by
  intro coded
  unfold parseCode at coded
  cases named : namedCode (rest.map Char.toLower) with
  | some code =>
      simp only [named, Option.some.injEq] at coded
      subst coded
      exact namedCode_mouse named
  | none =>
      simp only [named] at coded
      split at coded
      · cases coded
      · cases coded
      · split at coded
        · rcases Option.map_eq_some_iff.1 coded with ⟨n, -, same⟩
          cases same
        · cases coded
      · cases coded

theorem mouseName_buttons (named : mouseName name = some (button, kind)) :
    button = .left ∨ button = .right ∨ button = .middle := by
  unfold mouseName at named
  split at named
  all_goals cases named
  all_goals simp

theorem parsed_special (parsed : parseSpecial inner = some key) : Parsed key := by
  unfold parseSpecial at parsed
  rcases Option.map_eq_some_iff.1 parsed with ⟨code, named, rfl⟩
  unfold parseName at named
  cases mouse : parseMouseNotation (stripModifiers .none inner).2 with
  | none =>
      simp only [mouse] at named
      constructor
      · rintro c rfl -
        exact parseCode_lower named
      · rintro button clicks kind rfl
        exact absurd named parseCode_mouse
  | some gesture =>
      obtain ⟨button, clicks, kind⟩ := gesture
      simp only [mouse, Option.some.injEq] at named
      subst named
      constructor
      · intro c same
        cases same
      · intro button' clicks' kind' same
        cases same
        unfold parseMouseNotation at mouse
        split at mouse
        · cases mouse
        · split at mouse
          · cases mouse
          · next small =>
              rcases Option.map_eq_some_iff.1 mouse with ⟨⟨button', kind'⟩, found, same⟩
              simp only [Prod.mk.injEq] at same
              obtain ⟨rfl, rfl, rfl⟩ := same
              refine ⟨mouseName_buttons found, ?_⟩
              split
              · next pressed =>
                  simp only [not_or] at small
                  exact ⟨Fin.pos_of_ne_zero small.1, not_lt.1 small.2, .inl pressed⟩
              · exact ⟨by decide, by decide, .inr rfl⟩

theorem parsed_char (c : Char) : Parsed (.char c) := by
  constructor
  · rintro c' - (held | held | held) <;> cases held
  · intro button clicks kind same
    cases same

/-- A lower-case character or a named key, and no gesture. -/
def isLower : KeyCode → Bool
  | .char c => c.toLower == c
  | .mouse _ _ _ => false
  | _ => true

theorem control_keys : ∀ n : Fin 32, ∃ key, keyFromControlByte (Char.ofNat n) = some key ∧
    key ≠ .char (Char.ofNat n) ∧ canonicalCtrlAlias key = key ∧ isLower key.code = true ∧
      key.shift = false := by
  intro n
  have every : ∀ n : Fin 32, (keyFromControlByte (Char.ofNat n)).isSome ∧
      ∀ key ∈ keyFromControlByte (Char.ofNat n), key ≠ .char (Char.ofNat n) ∧
        canonicalCtrlAlias key = key ∧ isLower key.code = true ∧ key.shift = false := by decide
  obtain ⟨some_key, facts⟩ := every n
  obtain ⟨key, its⟩ := Option.isSome_iff_exists.1 some_key
  exact ⟨key, its, facts key its⟩

/-- A control character is read as another key, that no alias is folded onto. -/
theorem control_key (control : c.toNat ≤ 0x1f) :
    ∃ key, keyFromControlByte c = some key ∧ key ≠ .char c ∧ canonicalCtrlAlias key = key ∧
      isLower key.code = true ∧ key.shift = false := by
  have its := control_keys ⟨c.toNat, by omega⟩
  rw [Char.ofNat_toNat] at its
  exact its

/-- Any other character stands for itself. -/
theorem no_control_key (printable : 0x1f < c.toNat) : keyFromControlByte c = none := by
  unfold keyFromControlByte
  repeat rw [if_neg (by omega)]

/-- The key that a character outside special forms is read as. -/
def literalKey (c : Char) : Key := (keyFromControlByte c).getD (.char c)

theorem literalKey_eq_iff : literalKey c = .char c ↔ 0x1f < c.toNat := by
  unfold literalKey
  constructor
  · intro same
    by_contra control
    obtain ⟨key, its, differs, -⟩ := control_key (not_lt.1 control)
    simp only [its, Option.getD_some] at same
    exact differs same
  · intro printable
    simp [no_control_key printable]

theorem literalKey_alias (c : Char) : canonicalCtrlAlias (literalKey c) = literalKey c := by
  unfold literalKey
  by_cases printable : 0x1f < c.toNat
  · simp [no_control_key printable, canonicalCtrlAlias, Key.char, Key.new]
  · obtain ⟨key, its, -, unfolded, -⟩ := control_key (not_lt.1 printable)
    simp [its, unfolded]

theorem literalKey_shift (c : Char) : (literalKey c).shift = false := by
  unfold literalKey
  by_cases printable : 0x1f < c.toNat
  · simp [no_control_key printable, Key.char, Key.new]
  · obtain ⟨key, its, -, -, -, shift⟩ := control_key (not_lt.1 printable)
    simp [its, shift]

theorem parsed_literal (c : Char) : Parsed (literalKey c) := by
  unfold literalKey
  by_cases printable : 0x1f < c.toNat
  · simp only [no_control_key printable, Option.getD_none]
    exact parsed_char c
  · obtain ⟨key, its, -, -, lower, -⟩ := control_key (not_lt.1 printable)
    simp only [its, Option.getD_some]
    constructor
    · intro c' same _
      simpa [isLower, same] using lower
    · intro button clicks kind same
      simp [isLower, same] at lower

theorem parsed_of_mem (member : key ∈ parseKeysRaw input) : Parsed key := by
  unfold parseKeysRaw at member
  fun_induction parseKeysInner false input with
  | case1 => cases member
  | case2 input special rest found ih =>
      rcases List.mem_cons.1 member with rfl | later
      · unfold specialForm at found
        split at found
        · obtain ⟨parsed, its, same⟩ := Option.map_eq_some_iff.1 found
          cases same
          exact parsed_special its
        · cases found
      · exact ih later
  | case3 input nothing ih =>
      rcases List.mem_cons.1 member with rfl | later
      · exact parsed_char '<'
      · exact ih later
  | case4 c input other ih =>
      rcases List.mem_cons.1 member with rfl | later
      · exact parsed_literal c
      · exact ih later

/-- The two readings differ by the fold of the aliases, key for key. -/
theorem parseKeys_eq (input : List Char) :
    parseKeys input = (parseKeysRaw input).map canonicalCtrlAlias := by
  unfold parseKeys parseKeysRaw
  fun_induction parseKeysInner false input with
  | case1 => simp [parseKeysInner]
  | case2 input special rest found ih => simp [parse_special found, ih]
  | case3 input nothing ih =>
      rw [parse_unclosed nothing, ih, List.map_cons]
      rfl
  | case4 c input other ih =>
      rw [parse_cons_ne true other, ih, List.map_cons]
      exact congrArg (· :: _) (literalKey_alias c).symm

/-! ### Printed keys -/

theorem spells_mouse (buttons : button = .left ∨ button = .right ∨ button = .middle)
    (positive : 0 < clicks) (few : clicks ≤ 4) (single : kind = .press ∨ clicks = 1) :
    Spells (Key.new (.mouse button clicks kind)).stem.2 (.mouse button clicks kind) := by
  have every : ∀ clicks : U8, 0 < clicks → clicks ≤ 4 →
      clicks = 1 ∨ clicks = 2 ∨ clicks = 3 ∨ clicks = 4 := by decide +kernel
  rcases single with rfl | rfl
  · rcases every clicks positive few with rfl | rfl | rfl | rfl <;>
      rcases buttons with rfl | rfl | rfl <;>
      exact ⟨fun _ => rfl, by decide, rfl⟩
  · rcases buttons with rfl | rfl | rfl <;> cases kind <;>
      exact ⟨fun _ => rfl, by decide, rfl⟩

/-- The stem of a key that is not a character has nothing to do with its modifiers. -/
theorem stem_eq (other : ∀ c, key.code ≠ .char c) : key.stem = (Key.new key.code).stem := by
  obtain ⟨code, ctrl, alt, shift, cmd⟩ := key
  cases code with
  | char c => exact absurd rfl (other c)
  | _ => rfl

theorem spells_code (parsed : Parsed key) (other : ∀ c, key.code ≠ .char c) :
    Spells (Key.new key.code).stem.2 key.code := by
  cases code : key.code with
  | char c => exact absurd code (other c)
  | function n => exact spells_function n
  | mouse button clicks kind =>
      obtain ⟨buttons, positive, few, single⟩ := parsed.mouse button clicks kind code
      exact spells_mouse buttons positive few single
  | scrollWheel dir => cases dir <;> exact ⟨fun _ => rfl, by decide, rfl⟩
  | _ => exact ⟨fun _ => rfl, by decide, rfl⟩

/-- The three characters that have names. -/
theorem spells_named_char (code : key.code = .char c) (named : key.stem.1 = true) :
    Spells key.stem.2 (.char c) := by
  have space : Spells "Space".toList (.char ' ') := ⟨fun _ => rfl, by decide, rfl⟩
  have less : Spells "lt".toList (.char '<') := ⟨fun _ => rfl, by decide, rfl⟩
  have greater : Spells "gt".toList (.char '>') := ⟨fun _ => rfl, by decide, rfl⟩
  simp only [Key.stem, code] at named ⊢
  by_cases isSpace : c = ' '
  · rw [if_pos isSpace, isSpace]
    exact space
  · rw [if_neg isSpace] at named ⊢
    by_cases isLess : c = '<' ∧ (!(key.ctrl || key.alt || key.cmd)) = true
    · rw [if_pos isLess, isLess.1]
      exact less
    · rw [if_neg isLess] at named ⊢
      by_cases isGreater : c = '>' ∧ (key.ctrl || key.alt || key.cmd) = true
      · rw [if_pos isGreater, isGreater.1]
        exact greater
      · rw [if_neg isGreater] at named
        cases named

/-- The stem of a key that is printed by name spells its code. -/
theorem spells_stem (parsed : Parsed key) (named : key.stem.1 = true) :
    Spells key.stem.2 key.code := by
  by_cases isChar : ∃ c, key.code = .char c
  · obtain ⟨c, code⟩ := isChar
    rw [code]
    exact spells_named_char code named
  · simp only [not_exists] at isChar
    rw [stem_eq isChar]
    exact spells_code parsed isChar

/-- The key that a printed key is read as. -/
def Key.reread (key : Key) : Key :=
  if key.stem.1 then key
  else if key.ctrl || key.alt || key.cmd then { key with shift := false }
  else match key.code with
    | .char c => literalKey c
    | _ => key

/-- A key printed without a name is a character. -/
theorem unnamed_char (unnamed : key.stem.1 = false) : ∃ c, key.code = .char c ∧ key.stem.2 = [c] ∧
      (c = '<' → (key.ctrl || key.alt || key.cmd) = true) ∧
      ((key.ctrl || key.alt || key.cmd) = true → c ≠ '>') := by
  by_cases isChar : ∃ c, key.code = .char c
  · obtain ⟨c, code⟩ := isChar
    simp only [Key.stem, code] at unnamed ⊢
    by_cases isSpace : c = ' '
    · rw [if_pos isSpace] at unnamed
      cases unnamed
    · rw [if_neg isSpace] at unnamed ⊢
      by_cases isLess : c = '<' ∧ (!(key.ctrl || key.alt || key.cmd)) = true
      · rw [if_pos isLess] at unnamed
        cases unnamed
      · rw [if_neg isLess] at unnamed ⊢
        by_cases isGreater : c = '>' ∧ (key.ctrl || key.alt || key.cmd) = true
        · rw [if_pos isGreater] at unnamed
          cases unnamed
        · rw [if_neg isGreater]
          refine ⟨c, rfl, rfl, ?_, ?_⟩
          · intro same
            by_contra plain
            exact isLess ⟨same, by simp only [Bool.not_eq_true] at plain; rw [plain]; rfl⟩
          · intro held same
            exact isGreater ⟨same, held⟩
  · simp only [not_exists] at isChar
    rw [stem_eq isChar] at unnamed
    cases code : key.code with
    | char c => exact absurd code (isChar c)
    | mouse button clicks kind =>
        simp only [code, Key.stem, Key.new] at unnamed
        split at unnamed <;> cases unnamed
    | _ =>
        rw [code] at unnamed
        cases unnamed

/-- How a key with a name or a modifier is printed. -/
theorem keyToNotation_form (wrapped : key.stem.1 = true ∨ (key.ctrl || key.alt || key.cmd) = true) :
    keyToNotation key = '<' :: (modifierText key.ctrl key.alt key.cmd (key.shift && key.stem.1) ++
      key.stem.2 ++ ['>']) := by
  have shown : ¬ (!key.stem.1 && !key.ctrl && !key.alt && !key.cmd) = true := by
    simp only [Bool.and_eq_true, Bool.not_eq_true', not_and, Bool.not_eq_false]
    simp only [Bool.or_eq_true] at wrapped
    rintro ⟨⟨named, ctrl⟩, alt⟩
    simpa [named, ctrl, alt] using wrapped
  unfold keyToNotation
  rcases stem : key.stem with ⟨named, base⟩
  simp only [stem] at shown ⊢
  rw [if_neg shown]
  simp [modifierText]

theorem keyToNotation_char (unnamed : key.stem.1 = false)
    (plain : ¬ (key.ctrl || key.alt || key.cmd) = true) : keyToNotation key = key.stem.2 := by
  simp only [Bool.or_eq_true, not_or, Bool.not_eq_true] at plain
  unfold keyToNotation
  rcases stem : key.stem with ⟨named, base⟩
  simp only [stem] at unnamed ⊢
  rw [if_pos (by simp [unnamed, plain])]

/-- A printed key is read as one key, whatever follows it. -/
theorem parse_notation (parsed : Parsed key) (rest : List Char) :
    parseKeysRaw (keyToNotation key ++ rest) = key.reread :: parseKeysRaw rest := by
  unfold parseKeysRaw Key.reread
  cases named : key.stem.1 with
  | true =>
      have text : keyToNotation key ++ rest =
          '<' :: (modifierText key.ctrl key.alt key.cmd key.shift ++ key.stem.2 ++
            '>' :: rest) := by
        simp [keyToNotation_form (.inl named), named]
      rw [text, parse_form (spells_stem parsed named)]
      simp
  | false =>
      obtain ⟨c, code, base, less, greater⟩ := unnamed_char named
      by_cases held : (key.ctrl || key.alt || key.cmd) = true
      · have text : keyToNotation key ++ rest =
            '<' :: (modifierText key.ctrl key.alt key.cmd false ++ [c] ++ '>' :: rest) := by
          simp [keyToNotation_form (.inr held), named, base]
        have spells := spells_char (greater held)
        rw [parsed.lower c code (by simpa [or_assoc] using held)] at spells
        rw [text, parse_form spells, if_pos held, ← code]
        simp
      · have other : c ≠ '<' := fun same => held (less same)
        rw [keyToNotation_char named held, base, List.singleton_append,
          parse_cons_ne false other, if_neg held]
        simp [code, literalKey]

/-! ### Round trips -/

/-- The key is not a character held with shift, unless it is printed by name, and not a control
character without a modifier. -/
def Key.Legible (key : Key) : Prop :=
  key.stem.1 = true ∨
    key.shift = false ∧ ((key.ctrl || key.alt || key.cmd) = true ∨
      ∀ c, key.code = .char c → 0x1f < c.toNat)

theorem reread_eq_iff (key : Key) : key.reread = key ↔ key.Legible := by
  unfold Key.reread Key.Legible
  cases named : key.stem.1 with
  | true => simp
  | false =>
      obtain ⟨c, code, -⟩ := unnamed_char named
      by_cases held : (key.ctrl || key.alt || key.cmd) = true
      · rw [if_neg (by simp), if_pos held]
        constructor
        · intro same
          right
          exact ⟨(congrArg Key.shift same).symm, .inl held⟩
        · rintro (absurd | ⟨shift, -⟩)
          · cases absurd
          · obtain ⟨code, ctrl, alt, shift, cmd⟩ := key
            simp only at shift
            rw [shift]
      · rw [if_neg (by simp), if_neg held]
        have bare : ∀ shift, key.shift = shift → key = { Key.char c with shift := shift } := by
          rintro shift rfl
          obtain ⟨code', ctrl, alt, shift, cmd⟩ := key
          simp_all [Key.char, Key.new]
        simp only [code]
        constructor
        · intro same
          have shift : key.shift = false := by
            rw [← same]
            exact literalKey_shift c
          rw [bare false shift] at same
          right
          refine ⟨shift, .inr ?_⟩
          rintro c' its
          cases its
          exact literalKey_eq_iff.1 same
        · rintro (absurd | ⟨shift, held' | printable⟩)
          · cases absurd
          · exact absurd held' held
          · rw [literalKey_eq_iff.2 (printable c rfl)]
            exact (bare false shift).symm

/-- The keys of a text that prints some keys are those that each is read as. -/
theorem parse_notations {keys : List Key} (parsed : ∀ key ∈ keys, Parsed key) :
    parseKeysRaw (keys.flatMap keyToNotation) = keys.map Key.reread := by
  induction keys with
  | nil => simp [parseKeysRaw, parseKeysInner]
  | cons key keys ih =>
      rw [List.flatMap_cons, parse_notation (parsed key (List.mem_cons_self ..)), List.map_cons,
        ih fun key member => parsed key (List.mem_cons_of_mem _ member)]

/-- A code that stands for a named key when only Control is held. -/
def KeyCode.Aliased (code : KeyCode) : Prop :=
  code = .char 'i' ∨ code = .char 'm' ∨ code = .char '[' ∨ code = .char 'h'

/-- The key's only modifier is Control. -/
def Key.CtrlOnly (key : Key) : Prop :=
  key.ctrl = true ∧ key.alt = false ∧ key.shift = false ∧ key.cmd = false

theorem alias_ne_iff (key : Key) :
    canonicalCtrlAlias key ≠ key ↔
      key.ctrl = true ∧ key.alt = false ∧ key.shift = false ∧ key.code.Aliased := by
  obtain ⟨code, ctrl, alt, shift, cmd⟩ := key
  unfold canonicalCtrlAlias KeyCode.Aliased
  by_cases held : (!ctrl || alt || shift) = true
  · simp only [if_pos held]
    constructor
    · intro differs
      exact absurd rfl differs
    · rintro ⟨rfl, rfl, rfl, -⟩
      cases held
  · simp only [if_neg held]
    simp only [Bool.or_eq_true, Bool.not_eq_true', not_or, Bool.not_eq_false,
      Bool.not_eq_true] at held
    obtain ⟨⟨rfl, rfl⟩, rfl⟩ := held
    split
    all_goals simp_all [Key.new]

/-- Two readings of a text that differ only at keys with Control alone. -/
def DiffersAtCtrl (folded raw : List Key) : Prop :=
  List.Forall₂ (fun folded raw => folded ≠ raw → raw.CtrlOnly) folded raw

theorem differsAtCtrl_iff (raw : List Key) :
    DiffersAtCtrl (raw.map canonicalCtrlAlias) raw ↔
      ∀ key ∈ raw, ¬ (key.ctrl = true ∧ key.cmd = true ∧ key.alt = false ∧ key.shift = false ∧
        key.code.Aliased) := by
  unfold DiffersAtCtrl
  rw [List.forall₂_map_left_iff, List.forall₂_same]
  apply forall₂_congr
  intro key _
  rw [alias_ne_iff]
  unfold Key.CtrlOnly
  constructor
  · rintro only ⟨ctrl, cmd, alt, shift, code⟩
    rw [(only ⟨ctrl, alt, shift, code⟩).2.2.2] at cmd
    cases cmd
  · rintro plain ⟨ctrl, alt, shift, code⟩
    refine ⟨ctrl, alt, shift, ?_⟩
    by_contra cmd
    exact plain ⟨ctrl, by simpa using cmd, alt, shift, code⟩

/-- A parsed key's notation is read as that key exactly when it is legible, alone and in a row, and
the two readings differ at Control alone unless Command was held too. -/
theorem notation_round_trips (input : List Char) :
    (∀ key ∈ parseKeysRaw input,
      parseKeysRaw (keyToNotation key) = [key] ↔ key.Legible) ∧
    (∀ keys : List Key, (∀ key ∈ keys, ∃ text, key ∈ parseKeysRaw text) →
      (parseKeysRaw (keys.flatMap keyToNotation) = keys ↔ ∀ key ∈ keys, key.Legible)) ∧
    (DiffersAtCtrl (parseKeys input) (parseKeysRaw input) ↔
      ∀ key ∈ parseKeysRaw input, ¬ (key.ctrl = true ∧ key.cmd = true ∧ key.alt = false ∧
        key.shift = false ∧ key.code.Aliased)) := by
  refine ⟨?_, ?_, ?_⟩
  · intro key member
    have single := parse_notation (parsed_of_mem member) []
    rw [List.append_nil] at single
    rw [single, ← reread_eq_iff]
    simp [parseKeysRaw, parseKeysInner]
  · intro keys made
    have parsed : ∀ key ∈ keys, Parsed key := by
      intro key member
      obtain ⟨text, its⟩ := made key member
      exact parsed_of_mem its
    rw [parse_notations parsed]
    simp only [← reread_eq_iff]
    constructor
    · intro same key member
      exact List.map_inj_left.1 (same.trans (List.map_id _).symm) key member
    · intro same
      exact (List.map_congr_left same).trans (List.map_id _)
  · rw [parseKeys_eq]
    exact differsAtCtrl_iff _

theorem notation_round_trips_chord :
    parseKeysRaw (keyToNotation { Key.ctrlChar 'x' with alt := true }) =
      [{ Key.ctrlChar 'x' with alt := true }] :=
  ((notation_round_trips "<C-A-x>".toList).1 _ (by decide +kernel)).2 (.inr ⟨rfl, .inl rfl⟩)

/-- Shift is lost on a character, a control character comes back with Control, and Command does not
keep an alias from being folded. -/
theorem shift_is_lost :
    parseKeysRaw "<S-a><Nul><C-D-i>".toList =
      [{ Key.char 'a' with shift := true }, .char (Char.ofNat 0),
        { Key.ctrlChar 'i' with cmd := true }] ∧
    parseKeysRaw (keyToNotation { Key.char 'a' with shift := true }) = [.char 'a'] ∧
    parseKeysRaw (keyToNotation (.char (Char.ofNat 0))) = [.ctrlChar '@'] ∧
    parseKeys "<C-D-i>".toList = [.new .tab] := by
  decide +kernel

end Bemtvi.Input
