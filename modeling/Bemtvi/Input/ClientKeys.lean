/-
Module: Bemtvi.Input.ClientKeys
Purpose: What a client sends: the notation of a key press and of a pasted text, and that the
  parser reads a press as that key and a paste as its text between two brackets.
Trusted boundary: human-reviewed model of bemtvi-view keys.rs:15-188
Main exports: ClientKey, notationCmd, encodeText, encodePaste, textKeys, parse_encodeText,
  client_keys_survive
-/
import Bemtvi.Input.NotationLaws

namespace Bemtvi.Input

/-! ### Encoding -/

/-- A key press as a client sees it. -/
inductive ClientKey where
  | char (c : Char)
  | esc
  | enter
  | backspace
  | tab
  | delete
  | left
  | right
  | up
  | down
  | home
  | end_
  | pageUp
  | pageDown
  | function (n : U8)
deriving Repr, DecidableEq

/-- The names that the arms of `notation_cmd` wrap. -/
def ClientKey.name : ClientKey → List Char
  | .char c => [c]
  | .esc => "Esc".toList
  | .enter => "CR".toList
  | .backspace => "BS".toList
  | .tab => "Tab".toList
  | .delete => "Del".toList
  | .left => "Left".toList
  | .right => "Right".toList
  | .up => "Up".toList
  | .down => "Down".toList
  | .home => "Home".toList
  | .end_ => "End".toList
  | .pageUp => "PageUp".toList
  | .pageDown => "PageDown".toList
  | .function n => 'F' :: Nat.toDigits 10 n

/-- `notation_cmd`. -/
def notationCmd (ctrl alt cmd shift : Bool) (key : ClientKey) : List Char :=
  let held := (if ctrl then "C-".toList else []) ++ (if alt then "A-".toList else []) ++
    (if cmd then "D-".toList else [])
  let named_held := if shift then held ++ "S-".toList else held
  let wrap := fun (name : List Char) => '<' :: (named_held ++ name ++ ['>'])
  match key with
  | .char c =>
      if held ≠ [] then
        let c := if shift then c.toLower else c
        if c = '>' then wrap "gt".toList else wrap [c]
      else if c = '<' then "<lt>".toList
      else [c]
  | _ => wrap key.name

/-- `encode_text`. -/
def encodeText : List Char → List Char
  | [] => []
  | '\r' :: '\n' :: text => "<CR>".toList ++ encodeText text
  | c :: text =>
      (if c = '<' then "<lt>".toList
        else if c = '\t' then "<Tab>".toList
        else if c = '\n' ∨ c = '\r' then "<CR>".toList
        else [c]) ++ encodeText text

/-- `encode_paste`. -/
def encodePaste (text : List Char) : List Char :=
  if text = [] then []
  else "<PasteStart>".toList ++ encodeText text ++ "<PasteEnd>".toList

/-! ### Pasted text -/

/-- A key for each line break, each tab and each other character of a text. -/
def textKeys : List Char → List Key
  | [] => []
  | '\r' :: '\n' :: text => .new .enter :: textKeys text
  | c :: text =>
      (if c = '\n' ∨ c = '\r' then .new .enter
        else if c = '\t' then .new .tab
        else literalKey c) :: textKeys text

/-- A character on its own is read as one key. -/
theorem parse_single (c : Char) : parseKeysRaw [c] = [literalKey c] := by
  unfold parseKeysRaw
  by_cases less : c = '<'
  · subst less
    rw [parse_unclosed (by rfl), parseKeysInner]
    rfl
  · rw [parse_cons_ne false less]
    simp [literalKey, parseKeysInner]

variable {name text : List Char} {key : ClientKey}

/-- A name in brackets, without modifiers, that is no alias. -/
theorem parse_name {code : KeyCode} (spells : Spells name code) (fold_aliases : Bool)
    (rest : List Char) : parseKeysInner fold_aliases ('<' :: (name ++ '>' :: rest)) =
      .new code :: parseKeysInner fold_aliases rest := by
  have formed := parse_form spells fold_aliases false false false false rest
  have kept : canonicalCtrlAlias ⟨code, false, false, false, false⟩ = Key.new code := rfl
  rw [kept] at formed
  cases fold_aliases <;> exact formed

theorem spells_cr : Spells "CR".toList .enter := ⟨fun _ => rfl, by decide, rfl⟩
theorem spells_tab : Spells "Tab".toList .tab := ⟨fun _ => rfl, by decide, rfl⟩
theorem spells_lt : Spells "lt".toList (.char '<') := ⟨fun _ => rfl, by decide, rfl⟩
theorem spells_gt : Spells "gt".toList (.char '>') := ⟨fun _ => rfl, by decide, rfl⟩
theorem spells_start : Spells "PasteStart".toList .pasteStart := ⟨fun _ => rfl, by decide, rfl⟩
theorem spells_end : Spells "PasteEnd".toList .pasteEnd := ⟨fun _ => rfl, by decide, rfl⟩

/-- An encoded text is read as its keys, whatever follows it. -/
theorem parse_encodeText (fold_aliases : Bool) (text rest : List Char) :
    parseKeysInner fold_aliases (encodeText text ++ rest) =
      textKeys text ++ parseKeysInner fold_aliases rest := by
  fun_induction encodeText text with
  | case1 => simp [textKeys]
  | case2 text ih =>
      rw [textKeys, List.append_assoc, List.cons_append, ← ih]
      exact parse_name spells_cr fold_aliases _
  | case3 c text single ih =>
      rw [textKeys, List.append_assoc, List.cons_append, ← ih]
      · by_cases less : c = '<'
        · subst less
          exact parse_name spells_lt fold_aliases _
        · rw [if_neg less]
          by_cases tab : c = '\t'
          · subst tab
            exact parse_name spells_tab fold_aliases _
          · rw [if_neg tab, if_neg tab]
            by_cases line_break : c = '\n' ∨ c = '\r'
            · rw [if_pos line_break, if_pos line_break]
              exact parse_name spells_cr fold_aliases _
            · rw [if_neg line_break, if_neg line_break]
              exact parse_cons_ne fold_aliases less _
      · exact single

/-- The key of a single character is no bracket. -/
theorem literalKey_unbracketed (c : Char) :
    (literalKey c).code ≠ .pasteStart ∧ (literalKey c).code ≠ .pasteEnd := by
  unfold literalKey
  by_cases printable : 0x1f < c.toNat
  · simp [no_control_key printable, Key.char, Key.new]
  · have every : ∀ n : Fin 32, ∀ key ∈ keyFromControlByte (Char.ofNat n),
        key.code ≠ .pasteStart ∧ key.code ≠ .pasteEnd := by decide
    obtain ⟨key, its, -⟩ := control_key (not_lt.1 printable)
    rw [its]
    apply every ⟨c.toNat, by omega⟩ key
    rw [Char.ofNat_toNat]
    exact its

/-- No key of a text is a bracket. -/
theorem textKeys_unbracketed {key : Key} (member : key ∈ textKeys text) :
    key.code ≠ .pasteStart ∧ key.code ≠ .pasteEnd := by
  fun_induction textKeys text with
  | case1 => cases member
  | case2 text ih =>
      rcases List.mem_cons.1 member with rfl | later
      · simp [Key.new]
      · exact ih later
  | case3 c text single ih =>
      rcases List.mem_cons.1 member with rfl | later
      · split
        · simp [Key.new]
        · split
          · simp [Key.new]
          · exact literalKey_unbracketed c
      · exact ih later

/-- A paste is read as its text between two brackets. -/
theorem parse_encodePaste (fold_aliases : Bool) (some_text : text ≠ []) :
    parseKeysInner fold_aliases (encodePaste text) =
      .new .pasteStart :: textKeys text ++ [.new .pasteEnd] := by
  have closing := parse_name spells_end fold_aliases []
  have inside := parse_encodeText fold_aliases text "<PasteEnd>".toList
  have opening := parse_name spells_start fold_aliases (encodeText text ++ "<PasteEnd>".toList)
  unfold encodePaste
  rw [if_neg some_text, List.append_assoc]
  refine opening.trans ?_
  rw [inside]
  refine congrArg (fun keys => Key.new .pasteStart :: (textKeys text ++ keys)) ?_
  refine closing.trans ?_
  simp [parseKeysInner]

/-! ### Key presses -/

/-- The code that a named key press stands for. -/
def ClientKey.code : ClientKey → KeyCode
  | .char c => .char c
  | .esc => .esc
  | .enter => .enter
  | .backspace => .backspace
  | .tab => .tab
  | .delete => .delete
  | .left => .left
  | .right => .right
  | .up => .up
  | .down => .down
  | .home => .home
  | .end_ => .end_
  | .pageUp => .pageUp
  | .pageDown => .pageDown
  | .function n => .function n

/-- The key that a press should arrive as. -/
def ClientKey.pressed (ctrl alt cmd shift : Bool) (key : ClientKey) : Key :=
  match key with
  | .char c =>
      if ctrl || alt || cmd then ⟨.char c.toLower, ctrl, alt, shift, cmd⟩ else .char c
  | _ => ⟨key.code, ctrl, alt, shift, cmd⟩

theorem ClientKey.spells_name (named : ∀ c, key ≠ .char c) : Spells key.name key.code := by
  cases key with
  | char c => exact absurd rfl (named c)
  | function n => exact spells_function n
  | _ => exact ⟨fun _ => rfl, by decide, rfl⟩

theorem modifierText_eq (ctrl alt cmd shift : Bool) :
    (if shift then
      ((if ctrl then "C-".toList else []) ++ (if alt then "A-".toList else []) ++
        (if cmd then "D-".toList else [])) ++ "S-".toList
    else (if ctrl then "C-".toList else []) ++ (if alt then "A-".toList else []) ++
      (if cmd then "D-".toList else [])) = modifierText ctrl alt cmd shift := by
  cases shift <;> simp [modifierText]

theorem held_iff (ctrl alt cmd : Bool) :
    ((if ctrl then "C-".toList else []) ++ (if alt then "A-".toList else []) ++
      (if cmd then "D-".toList else [])) ≠ [] ↔ (ctrl || alt || cmd) = true := by
  cases ctrl <;> cases alt <;> cases cmd <;> decide

theorem toLower_ne {c d : Char} (other : c ≠ d) (not_lower : d.isLower = false) :
    c.toLower ≠ d := by
  by_cases upper : c.isUpper = true
  · rintro rfl
    rw [Char.isLower_toLower_eq_isAlpha, Char.isAlpha, upper] at not_lower
    cases not_lower
  · rw [Char.toLower_eq_of_not_isUpper upper]
    exact other

/-- A name in brackets is read as its key. -/
theorem parse_wrapped {code : KeyCode} (spells : Spells name code) (ctrl alt cmd shift : Bool) :
    parseKeysRaw ('<' :: (modifierText ctrl alt cmd shift ++ name ++ ['>'])) =
      [⟨code, ctrl, alt, shift, cmd⟩] := by
  have formed := parse_form spells false ctrl alt cmd shift []
  simpa [parseKeysRaw, parseKeysInner] using formed

/-- A press is read as the one key it should arrive as. -/
theorem parse_notationCmd (ctrl alt cmd shift : Bool)
    (printable : ∀ c, key = .char c → 0x1f < c.toNat) :
    parseKeysRaw (notationCmd ctrl alt cmd shift key) = [key.pressed ctrl alt cmd shift] := by
  unfold notationCmd
  simp only [modifierText_eq, held_iff]
  cases key with
  | char c =>
      simp only [ClientKey.pressed]
      by_cases held : (ctrl || alt || cmd) = true
      · rw [if_pos held, if_pos held]
        by_cases greater : c = '>'
        · subst greater
          have spelled := parse_wrapped spells_gt ctrl alt cmd shift
          cases shift <;> exact spelled
        · have lowered : (if shift then c.toLower else c).toLower = c.toLower := by
            cases shift <;> simp
          have other : (if shift then c.toLower else c) ≠ '>' := by
            cases shift
            · exact greater
            · exact toLower_ne greater (by decide)
          rw [if_neg other, parse_wrapped (spells_char other), lowered]
      · rw [if_neg held, if_neg held]
        by_cases less : c = '<'
        · rw [if_pos less, less]
          refine (parse_name spells_lt false []).trans ?_
          simp [parseKeysInner, Key.char]
        · rw [if_neg less, parse_single, literalKey_eq_iff.2 (printable c rfl)]
  | _ => exact parse_wrapped (ClientKey.spells_name (by simp)) ctrl alt cmd shift

/-- A paste that is not empty is read as its text between two brackets, with no bracket inside, and
a press as its key. -/
theorem client_keys_survive :
    (∀ text : List Char, text ≠ [] →
      parseKeysRaw (encodePaste text) = .new .pasteStart :: textKeys text ++ [.new .pasteEnd] ∧
      parseKeys (encodePaste text) = .new .pasteStart :: textKeys text ++ [.new .pasteEnd] ∧
      ∀ key ∈ textKeys text, key.code ≠ .pasteStart ∧ key.code ≠ .pasteEnd) ∧
    encodePaste [] = [] ∧
    (∀ c, parseKeysRaw [c] = [literalKey c]) ∧
    ∀ ctrl alt cmd shift (key : ClientKey), (∀ c, key = .char c → 0x1f < c.toNat) →
      parseKeysRaw (notationCmd ctrl alt cmd shift key) = [key.pressed ctrl alt cmd shift] := by
  refine ⟨?_, rfl, parse_single, ?_⟩
  · intro text some_text
    refine ⟨parse_encodePaste false some_text, parse_encodePaste true some_text, ?_⟩
    intro key member
    exact textKeys_unbracketed member
  · intro ctrl alt cmd shift key printable
    exact parse_notationCmd ctrl alt cmd shift printable

theorem client_keys_survive_escape :
    parseKeysRaw (encodePaste "a<PasteEnd>\r\nb".toList) =
      .new .pasteStart :: textKeys "a<PasteEnd>\r\nb".toList ++ [.new .pasteEnd] :=
  (client_keys_survive.1 "a<PasteEnd>\r\nb".toList (by decide)).1

/-- An empty text has no brackets, and a letter beyond ASCII keeps its case. -/
theorem empty_paste_unbracketed :
    parseKeysRaw (encodePaste []) = [] ∧
    parseKeysRaw (notationCmd true false false false (.char 'É')) = [.ctrlChar 'É'] := by
  decide +kernel

end Bemtvi.Input
