/-
Module: Bemtvi.Core.Macros
Purpose: Keyboard macros: the recording of typed keys, the register it goes to as notation, and its
  playback; the last command line played back as keys.
Trusted boundary: human-reviewed model of bemtvi-core/src/editor/macros.rs:84-171 and of
  editor/operators.rs:1553-1580; the registers that other state answers for are a parameter
Main exports: Editor, Editor.startRecording, Editor.noteMacroKey, Editor.stopRecording,
  Editor.playMacro, Holds, recordings_hold, macros_replay_iff
-/
import Bemtvi.Core.Registers
import Bemtvi.Input.NotationLaws

namespace Bemtvi.Core.Macro

open Bemtvi.Input

/-! ### Macros -/

/-- A macro the editor has asked the server to play back. -/
structure MacroPlay where
  reg : Char
  keys : List Key
  count : Nat
deriving Repr, DecidableEq

/-- What of the editor macros read and write. -/
structure Editor where
  macroRecord : Option (Char × List Key)
  macroLastPlayed : Option Char
  macroPlay : Option MacroPlay
  registers : Registers
  exHistory : List (List Char)
  /-- The file's name, the last search, the last insert and the clipboard. -/
  special : Char → Option RegisterCell
  message : String

namespace Editor

def echo (editor : Editor) (message : String) : Editor := { editor with message := message }

def noteMacroKey (editor : Editor) (key : Key) : Editor :=
  { editor with macroRecord := editor.macroRecord.map fun (reg, keys) => (reg, keys ++ [key]) }

def startRecording (editor : Editor) (reg : Char) : Editor :=
  if editor.macroRecord.isSome then editor.echo "E872: Already recording"
  else { editor with macroRecord := some (reg, []) }.echo ""

/-- Without the `<F2>` that ended the recording. -/
def withoutStop (keys : List Key) : List Key :=
  if keys.getLast?.any isMacroRecordKey then keys.dropLast else keys

def stopRecording (editor : Editor) : Editor :=
  match editor.macroRecord with
  | none => editor
  | some (reg, keys) =>
      let text := (withoutStop keys).flatMap keyToNotation
      { editor with
        macroRecord := none
        registers := editor.registers.setApi reg.toLower text .char reg.isUpper }.echo ""

/-- `register_text`, of a named register. -/
def registerText (editor : Editor) (name : Char) : Option RegisterCell :=
  if name = '%' ∨ name = '/' ∨ name = '.' ∨ name = '+' ∨ name = '*' then editor.special name
  else if name = ':' then editor.exHistory.getLast?.map fun command => ⟨command, .char⟩
  else editor.registers.get name

/-- `play_macro`. -/
def playMacro (editor : Editor) (reg : Option Char) (count : Nat) : Editor :=
  match reg.or editor.macroLastPlayed with
  | none => editor.echo "E748: No previously used register"
  | some name =>
      match editor.registerText name with
      | none => { editor with macroLastPlayed := some name }
      | some cell =>
          let keys := if name = ':' then parseKeys (':' :: cell.text ++ "<CR>".toList)
            else parseKeys cell.text
          if keys.isEmpty then { editor with macroLastPlayed := some name }
          else { editor with
            macroLastPlayed := some name
            macroPlay := some ⟨name, keys, count⟩ }

/-- The keys that a register is played back as, once the server has taken what was asked before. -/
def playback (editor : Editor) (reg : Char) (count : Nat) : List Key :=
  (({ editor with macroPlay := none }.playMacro (some reg) count).macroPlay.map
    MacroPlay.keys).getD []

theorem playback_eq (editor : Editor) (reg : Char) (count : Nat) :
    editor.playback reg count =
      match editor.registerText reg with
      | none => []
      | some cell => if reg = ':' then parseKeys (':' :: cell.text ++ "<CR>".toList)
          else parseKeys cell.text := by
  have same : { editor with macroPlay := none }.registerText reg = editor.registerText reg := rfl
  unfold playback playMacro
  simp only [Option.some_or, same]
  cases editor.registerText reg with
  | none => rfl
  | some cell =>
      simp only
      generalize (if reg = ':' then parseKeys (':' :: cell.text ++ "<CR>".toList)
        else parseKeys cell.text) = keys
      cases keys <;> rfl

theorem withoutStop_concat {stop : Key} (stops : isMacroRecordKey stop = true) (keys : List Key) :
    withoutStop (keys ++ [stop]) = keys := by
  simp [withoutStop, stops]

end Editor

/-! ### Keys and their notation -/

theorem alias_idem (key : Key) :
    canonicalCtrlAlias (canonicalCtrlAlias key) = canonicalCtrlAlias key := by
  by_cases folds : canonicalCtrlAlias key = key
  · rw [folds, folds]
  · obtain ⟨ctrl, alt, shift, aliased⟩ := (alias_ne_iff key).1 folds
    rcases aliased with code | code | code | code
    all_goals
      simp only [canonicalCtrlAlias, ctrl, alt, shift, code]
      rfl

variable {key : Key} {input name rest : List Char} {editor : Editor} {earlier : List Key}

theorem parsed_alias (parsed : Parsed key) : Parsed (canonicalCtrlAlias key) := by
  by_cases folds : canonicalCtrlAlias key = key
  · rw [folds]
    exact parsed
  · obtain ⟨ctrl, alt, shift, aliased⟩ := (alias_ne_iff key).1 folds
    constructor
    · intro c code
      rcases aliased with its | its | its | its
      all_goals simp [canonicalCtrlAlias, ctrl, alt, shift, its, Key.new] at code
    · intro button clicks kind code
      rcases aliased with its | its | its | its
      all_goals simp [canonicalCtrlAlias, ctrl, alt, shift, its, Key.new] at code

/-- What `parseKeys` makes is parsed and holds no alias. -/
theorem typed_key (typed : key ∈ parseKeys input) :
    Parsed key ∧ canonicalCtrlAlias key = key := by
  rw [parseKeys_eq] at typed
  obtain ⟨raw, member, rfl⟩ := List.mem_map.1 typed
  exact ⟨parsed_alias (parsed_of_mem member), alias_idem raw⟩

/-- A key that holds no alias comes back through its notation exactly when it is legible. -/
theorem alias_reread_iff (folded : canonicalCtrlAlias key = key) :
    canonicalCtrlAlias key.reread = key ↔ key.Legible := by
  rw [← reread_eq_iff]
  constructor
  · intro back
    by_cases folds : canonicalCtrlAlias key.reread = key.reread
    · rw [← folds]
      exact back
    · obtain ⟨ctrl, alt, shift, aliased⟩ := (alias_ne_iff key.reread).1 folds
      -- The fold gives a named key, and a named key is its own reading.
      have named : key.stem.1 = true := by
        rw [← back]
        rcases aliased with code | code | code | code
        all_goals
          simp only [canonicalCtrlAlias, ctrl, alt, shift, code]
          rfl
      simp [Key.reread, named]
  · intro same
    rw [same]
    exact folded

theorem parseKeys_notations {keys : List Key} (typed : ∀ key ∈ keys, ∃ input, key ∈ parseKeys input) :
    parseKeys (keys.flatMap keyToNotation) = keys ↔ ∀ key ∈ keys, key.Legible := by
  have parsed : ∀ key ∈ keys, Parsed key ∧ canonicalCtrlAlias key = key := by
    intro key member
    obtain ⟨input, its⟩ := typed key member
    exact typed_key its
  rw [parseKeys_eq, parse_notations fun key member => (parsed key member).1, List.map_map]
  constructor
  · intro same key member
    apply (alias_reread_iff (parsed key member).2).1
    exact List.map_inj_left.1 (same.trans (List.map_id _).symm) key member
  · intro legible
    calc keys.map (canonicalCtrlAlias ∘ Key.reread)
        = keys.map id := by
          apply List.map_congr_left
          intro key member
          exact (alias_reread_iff (parsed key member).2).2 (legible key member)
      _ = keys := List.map_id _

/-! ### Recordings -/

/-- What happens while a recording runs. -/
inductive Event where
  /-- A typed key is executed. -/
  | note (key : Key)
  /-- The command of some key writes a register. -/
  | write (name : Char) (cell : RegisterCell)
deriving Repr, DecidableEq

def Editor.take (editor : Editor) : Event → Editor
  | .note key => editor.noteMacroKey key
  | .write name cell => { editor with registers := editor.registers.set name cell }

/-- One recording: its register, and what happens before the key that stops it. -/
structure Recording where
  reg : Char
  events : List Event
  stop : Key

/-- The keys that were noted. -/
def Recording.keys (recording : Recording) : List Key :=
  recording.events.filterMap fun event =>
    match event with
    | .note key => some key
    | .write _ _ => none

def Editor.record (editor : Editor) (recording : Recording) : Editor :=
  ((recording.events.foldl Editor.take (editor.startRecording recording.reg)).noteMacroKey
    recording.stop).stopRecording

/-- A recording that its register can hold: no other command writes the register while a recording
that appends to it runs. -/
structure Recording.Into (recording : Recording) (name : Char) : Prop where
  recordable : isRecordableRegister recording.reg = true
  stops : isMacroRecordKey recording.stop = true
  alone : recording.reg.isUpper = true → ∀ cell, Event.write name cell ∉ recording.events

/-- The register holds the notation of the keys. -/
def Holds (editor : Editor) (name : Char) (keys : List Key) : Prop :=
  editor.registers name = some ⟨keys.flatMap keyToNotation, .char⟩ ∨
    (keys = [] ∧ editor.registers name = none)

/-- The keys of a register behind a recording into it: an uppercase name appends. -/
def Recording.onto (keys : List Key) (recording : Recording) : List Key :=
  if recording.reg.isUpper then keys ++ recording.keys else recording.keys

theorem take_notes {editor : Editor} {reg : Char} {keys : List Key} {events : List Event}
    (recording : editor.macroRecord = some (reg, keys)) :
    (events.foldl Editor.take editor).macroRecord =
      some (reg, keys ++ (Recording.mk reg events (.new .esc)).keys) := by
  induction events generalizing editor keys with
  | nil => simp [Recording.keys, recording]
  | cons event events ih =>
      rw [List.foldl_cons]
      cases event with
      | note key =>
          have noted : (editor.take (.note key)).macroRecord = some (reg, keys ++ [key]) := by
            simp [Editor.take, Editor.noteMacroKey, recording]
          simpa [Recording.keys] using ih noted
      | write other cell =>
          have still : (editor.take (.write other cell)).macroRecord = some (reg, keys) := recording
          simpa [Recording.keys] using ih still

theorem take_keeps {name : Char} {events : List Event}
    (alone : ∀ cell, Event.write name cell ∉ events) :
    (events.foldl Editor.take editor).registers name = editor.registers name := by
  induction events generalizing editor with
  | nil => rfl
  | cons event events ih =>
      have later : ∀ cell, Event.write name cell ∉ events := by
        intro cell member
        exact alone cell (List.mem_cons_of_mem event member)
      rw [List.foldl_cons, ih later]
      cases event with
      | note key => rfl
      | write other cell =>
          have apart : name ≠ other := by
            rintro rfl
            exact alone cell (List.mem_cons_self ..)
          simp [Editor.take, Registers.set, apart]

theorem recordable_toLower {name : Char} (recordable : isRecordableRegister name = true) :
    isRecordableRegister name.toLower = true := by
  by_cases upper : name.isUpper = true
  · simp [isRecordableRegister, Char.isAlphanum, Char.isAlpha, upper]
  · rw [Char.toLower_eq_of_not_isUpper upper]
    exact recordable

/-- One recording leaves the keys it noted in its register, behind the older ones or alone. -/
theorem record_holds {recording : Recording} (idle : editor.macroRecord = none)
    (into : recording.Into recording.reg.toLower)
    (holds : Holds editor recording.reg.toLower earlier) :
    (editor.record recording).macroRecord = none ∧
      Holds (editor.record recording) recording.reg.toLower (recording.onto earlier) := by
  have started : (editor.startRecording recording.reg).macroRecord = some (recording.reg, []) := by
    simp [Editor.startRecording, idle, Editor.echo]
  have same : (editor.startRecording recording.reg).registers = editor.registers := by
    simp [Editor.startRecording, idle, Editor.echo]
  have noted := @take_notes _ _ _ recording.events started
  rw [List.nil_append] at noted
  have kept : recording.reg.isUpper = true → (recording.events.foldl Editor.take
      (editor.startRecording recording.reg)).registers recording.reg.toLower =
        editor.registers recording.reg.toLower := by
    intro appends
    rw [take_keeps (into.alone appends), same]
  have lower := Char.toLower_toLower_eq_toLower recording.reg
  have named : recording.reg.toLower ≠ '_' := by
    intro blackHole
    have recordable := recordable_toLower into.recordable
    rw [blackHole] at recordable
    exact absurd recordable (by decide)
  have stopped : editor.record recording = Editor.echo { (recording.events.foldl Editor.take
        (editor.startRecording recording.reg)).noteMacroKey recording.stop with
      macroRecord := none
      registers := (recording.events.foldl Editor.take
        (editor.startRecording recording.reg)).registers.setApi recording.reg.toLower
          (recording.keys.flatMap keyToNotation) .char recording.reg.isUpper } "" := by
    simp only [Editor.record, Editor.stopRecording, Editor.noteMacroKey, noted, Option.map_some,
      Editor.withoutStop_concat into.stops]
    rfl
  rw [stopped]
  refine ⟨rfl, ?_⟩
  generalize (recording.events.foldl Editor.take
    (editor.startRecording recording.reg)).registers = registers at kept ⊢
  simp only [Holds, Editor.echo, Registers.setApi, if_neg named, lower, Recording.onto]
  left
  cases upper : recording.reg.isUpper with
  | false => simp [Registers.set]
  | true =>
      simp only [if_true, Registers.set, Registers.appendCell, kept upper]
      rcases holds with left | ⟨rfl, nothing⟩
      · simp [left]
      · simp [nothing]

/-- **Recordings.**  What one register holds behind any number of recordings into it. -/
theorem recordings_hold {name : Char} {recordings : List Recording}
    (idle : editor.macroRecord = none)
    (into : ∀ recording ∈ recordings, recording.Into name ∧ recording.reg.toLower = name)
    (holds : Holds editor name earlier) : Holds (recordings.foldl Editor.record editor) name
      (recordings.foldl Recording.onto earlier) := by
  induction recordings generalizing editor earlier with
  | nil => exact holds
  | cons recording recordings ih =>
      obtain ⟨its, rfl⟩ := into recording (List.mem_cons_self ..)
      obtain ⟨idle', held⟩ := record_holds idle its holds
      exact ih idle' (fun later member => into later (List.mem_cons_of_mem _ member)) held

/-! ### Command lines -/

/-- No character of the text is read as another key, and no `<` of it opens a special form. -/
def ReadPlainly : List Char → Prop
  | [] => True
  | c :: rest => 0x1f < c.toNat ∧ (c = '<' → specialForm rest = none) ∧ ReadPlainly rest

instance (text : List Char) : Decidable (ReadPlainly text) := by
  induction text with
  | nil => exact .isTrue trivial
  | cons c rest ih =>
      unfold ReadPlainly
      infer_instance

theorem open_ne {literal : String} (opens : '<' ∈ name) (closed : '<' ∉ literal.toList) :
    String.ofList name ≠ literal := by
  rintro rfl
  rw [String.toList_ofList] at closed
  exact closed opens

theorem namedCode_open (opens : '<' ∈ name) : namedCode name = none := by
  unfold namedCode
  split
  all_goals first | rfl | exact absurd ‹_› (open_ne opens (by decide))

theorem mouseName_open (opens : '<' ∈ name) : mouseName name = none := by
  unfold mouseName
  split
  all_goals first | rfl | exact absurd ‹_› (open_ne opens (by decide))

theorem mouseClicks_open {lower : List Char} {clicks : U8}
    (clicked : mouseClicks lower = some (clicks, name)) (opens : '<' ∈ lower) : '<' ∈ name := by
  unfold mouseClicks splitDash at clicked
  by_cases dash : '-' ∈ lower
  · simp only [dash, if_true] at clicked
    split at clicked
    · rename_i digits
      obtain ⟨n, -, same⟩ := Option.map_eq_some_iff.1 clicked
      cases same
      obtain ⟨front, later, rfl, undashed⟩ := List.eq_append_cons_of_mem dash
      have front_passes : ∀ c ∈ front, decide (c ≠ '-') = true := by
        intro c member
        simp only [decide_eq_true_eq]
        rintro rfl
        exact undashed member
      rw [List.takeWhile_append_of_pos front_passes] at digits
      rw [List.dropWhile_append_of_pos front_passes]
      simp only [List.mem_append, List.mem_cons] at opens
      rcases opens with early | dash | late
      · exact absurd (List.all_eq_true.1 digits.2 _ (List.mem_append_left _ early)) (by decide)
      · cases dash
      · simpa using late
    · cases clicked
      exact opens
  · simp only [dash, if_false] at clicked
    cases clicked
    exact opens

theorem parseName_open (opens : '<' ∈ name) (long : 1 < name.length) : parseName name = none := by
  have lower_opens : '<' ∈ name.map Char.toLower := List.mem_map.2 ⟨'<', opens, by decide⟩
  have no_mouse : parseMouseNotation name = none := by
    unfold parseMouseNotation
    cases clicked : mouseClicks (name.map Char.toLower) with
    | none => rfl
    | some pair => simp [mouseName_open (mouseClicks_open clicked lower_opens)]
  have no_code : parseCode name = none := by
    unfold parseCode
    simp only [namedCode_open lower_opens]
    split
    · rfl
    · rename_i c single
      have short := congrArg List.length single
      rw [List.length_map, List.length_singleton] at short
      omega
    · rename_i digits function
      rw [if_neg]
      intro all
      rw [function] at lower_opens
      rcases List.mem_cons.1 lower_opens with letter | digit
      · exact absurd letter (by decide)
      · exact absurd (List.all_eq_true.1 all _ digit) (by decide)
    · rfl
  simp [parseName, no_mouse, no_code]

theorem stripModifiers_open (held : Modifiers) (inner : List Char) :
    ∃ held' name, stripModifiers held (inner ++ "<CR".toList) = (held', name ++ "<CR".toList) := by
  fun_induction stripModifiers held inner with
  | case1 held letter rest held' its ih =>
      obtain ⟨last, name, strips⟩ := ih
      refine ⟨last, name, ?_⟩
      rw [← strips]
      simp [stripModifiers, its]
  | case2 held letter rest none_held =>
      exact ⟨held, letter :: '-' :: rest, by simp [stripModifiers, none_held]⟩
  | case3 held rest other =>
      refine ⟨held, rest, ?_⟩
      rcases rest with - | ⟨first, - | ⟨second, rest⟩⟩
      · rfl
      · rfl
      · have plain : second ≠ '-' := by
          rintro rfl
          exact other first rest rfl
        simp [stripModifiers, plain]

/-- No key's name ends in an opened form. -/
theorem parseSpecial_open (inner : List Char) : parseSpecial (inner ++ "<CR".toList) = none := by
  obtain ⟨held, name, strips⟩ := stripModifiers_open .none inner
  have unnamed : parseName (name ++ "<CR".toList) = none := by
    apply parseName_open
    · simp
    · simp
  rw [parseSpecial, strips]
  simp only [unnamed, Option.map_none]

theorem specialForm_append (rest : List Char) :
    specialForm (rest ++ "<CR>".toList) =
      (specialForm rest).map fun (key, later) => (key, later ++ "<CR>".toList) := by
  by_cases closes : '>' ∈ rest
  · obtain ⟨inner, later, rfl, closed⟩ := List.eq_append_cons_of_mem closes
    rw [List.append_assoc, List.cons_append, specialForm_closed closed,
      specialForm_closed closed, Option.map_map]
    rfl
  · have whole : rest ++ "<CR>".toList = (rest ++ "<CR".toList) ++ '>' :: [] := by simp
    have closed : '>' ∉ rest ++ "<CR".toList := by simp [closes]
    rw [whole, specialForm_closed closed, parseSpecial_open]
    simp [specialForm, closes]

/-- An opened form stays open before Enter. -/
theorem enter_unclosed (formed : specialForm rest = none) :
    parseKeys ('<' :: rest ++ "<CR>".toList) = .char '<' :: parseKeys (rest ++ "<CR>".toList) := by
  have plain : specialForm (rest ++ "<CR>".toList) = none := by
    rw [specialForm_append, formed, Option.map_none]
  rw [List.cons_append, parseKeys, parse_unclosed plain, parseKeys]

/-- A closed form is read before Enter as it is alone. -/
theorem enter_special {later : List Char} (formed : specialForm rest = some (key, later)) :
    parseKeys ('<' :: rest ++ "<CR>".toList) =
      canonicalCtrlAlias key :: parseKeys (later ++ "<CR>".toList) := by
  have its : specialForm (rest ++ "<CR>".toList) = some (key, later ++ "<CR>".toList) := by
    rw [specialForm_append, formed, Option.map_some]
  rw [List.cons_append, parseKeys, parse_special its, if_pos rfl, parseKeys]

/-- A text of `n` characters and Enter make no more than `n + 1` keys. -/
theorem parse_length_le (text : List Char) :
    (parseKeys (text ++ "<CR>".toList)).length ≤ text.length + 1 := by
  induction size : text.length using Nat.strong_induction_on generalizing text with
  | _ n ih =>
      subst size
      cases text with
      | nil => decide +kernel
      | cons c rest =>
          have shorter := ih rest.length (by simp) rest rfl
          by_cases opens : c = '<'
          · subst opens
            cases formed : specialForm rest with
            | none =>
                rw [enter_unclosed formed]
                exact Nat.succ_le_succ shorter
            | some form =>
                obtain ⟨key, later⟩ := form
                have less := specialForm_shorter formed
                have bound := ih later.length (by simp; omega) later rfl
                rw [enter_special formed]
                simp only [List.length_cons]
                exact Nat.succ_le_succ (Nat.le_trans bound (Nat.succ_le_succ less))
          · rw [List.cons_append, parseKeys, parse_cons_ne true opens]
            exact Nat.succ_le_succ shorter

theorem specialForm_lt (found : specialForm input = some (key, rest)) :
    rest.length < input.length := by
  unfold specialForm at found
  split at found
  · rename_i closes
    obtain ⟨inner, later, rfl, closed⟩ := List.eq_append_cons_of_mem closes
    have formed := specialForm_closed closed later
    simp only [specialForm, if_pos closes] at formed
    rw [formed] at found
    obtain ⟨_, -, same⟩ := Option.map_eq_some_iff.1 found
    cases same
    simp
    omega
  · cases found

/-- A command line is played back character for character exactly when it reads plainly. -/
theorem parse_command_iff (text : List Char) :
    parseKeys (text ++ "<CR>".toList) = text.map Key.char ++ [.new .enter] ↔ ReadPlainly text := by
  induction text with
  | nil =>
      constructor
      · intro _
        trivial
      · intro _
        decide +kernel
  | cons c rest ih =>
      rw [ReadPlainly, ← ih]
      by_cases opens : c = '<'
      · subst opens
        cases formed : specialForm rest with
        | none =>
            rw [enter_unclosed formed]
            simp
        | some form =>
            -- A form takes more characters than it makes keys, so some key is missing.
            obtain ⟨key, later⟩ := form
            have less := specialForm_lt formed
            have bound := parse_length_le later
            rw [enter_special formed]
            constructor
            · intro same
              have lengths := congrArg List.length same
              simp only [List.length_cons, List.length_append, List.length_map,
                List.length_nil] at lengths
              omega
            · rintro ⟨-, unformed, -⟩
              cases unformed rfl
      · rw [List.cons_append, parseKeys, parse_cons_ne true opens]
        simp only [List.map_cons, List.cons_append, List.cons.injEq, opens, false_implies, true_and]
        rw [← literalKey_eq_iff]
        rfl

/-- **Macros replay what was recorded.**  A register plays back the keys of the recordings into it
exactly when each of them is legible, and the command line register plays back its text exactly when
the text reads plainly. -/
theorem macros_replay_iff (editor : Editor) (name : Char) (recordings : List Recording)
    (earlier : List Key) (text : List Char) (count : Nat)
    (recordable : isRecordableRegister name = true) (lower : name.toLower = name)
    (idle : editor.macroRecord = none)
    (into : ∀ recording ∈ recordings, recording.Into name ∧ recording.reg.toLower = name)
    (holds : Holds editor name earlier)
    (typed : ∀ key ∈ recordings.foldl Recording.onto earlier, ∃ input, key ∈ parseKeys input)
    (last : editor.exHistory.getLast? = some text) :
    ((recordings.foldl Editor.record editor).playback name count =
        recordings.foldl Recording.onto earlier ↔
      ∀ key ∈ recordings.foldl Recording.onto earlier, key.Legible) ∧
    (editor.playback ':' count = .char ':' :: text.map Key.char ++ [.new .enter] ↔
      ReadPlainly text) := by
  constructor
  · have held := recordings_hold idle into holds
    generalize recordings.foldl Recording.onto earlier = keys at held typed ⊢
    generalize recordings.foldl Editor.record editor = after at held ⊢
    have ordinary : ∀ other, isRecordableRegister other = false → name ≠ other := by
      rintro other not rfl
      rw [recordable] at not
      cases not
    have text_of : after.registerText name = after.registers name := by
      simp [Editor.registerText, ordinary '%' (by decide), ordinary '/' (by decide),
        ordinary '.' (by decide), ordinary '+' (by decide), ordinary '*' (by decide),
        ordinary ':' (by decide), Registers.get, lower]
    rw [Editor.playback_eq, text_of]
    rcases held with left | ⟨rfl, nothing⟩
    · rw [left]
      simp only [ordinary ':' (by decide), if_false]
      exact parseKeys_notations typed
    · rw [nothing]
      simp
  · have text_of : editor.registerText ':' = some ⟨text, .char⟩ := by
      simp [Editor.registerText, last]
    rw [Editor.playback_eq, text_of, ← parse_command_iff]
    simp only [if_true, List.cons_append, List.cons_append]
    rw [parseKeys, parse_cons_ne true (by decide)]
    constructor
    · intro same
      exact (List.cons.inj same).2
    · intro same
      exact congrArg₂ List.cons (by decide) same

/-- An editor that has recorded nothing, behind one command line. -/
def fresh (command : String) : Editor where
  macroRecord := none
  macroLastPlayed := none
  macroPlay := none
  registers := fun _ => none
  exHistory := [command.toList]
  special := fun _ => none
  message := ""

/-- A recording, appended to by a second one. -/
theorem macros_replay_iff_append :
    ([⟨'a', [.note (.char 'x'), .note (.char '<')], .new (.function 2)⟩,
        ⟨'A', [.note (.ctrlChar 'r')], .new (.function 2)⟩].foldl Editor.record
          (fresh "w")).playback 'a' 1 = [.char 'x', .char '<', .ctrlChar 'r'] := by
  have keys : [⟨'a', [.note (.char 'x'), .note (.char '<')], .new (.function 2)⟩,
      ⟨'A', [.note (.ctrlChar 'r')], .new (.function 2)⟩].foldl Recording.onto [] =
        [Key.char 'x', .char '<', .ctrlChar 'r'] := by
    decide
  have replays := macros_replay_iff (fresh "w") 'a' [⟨'a', [.note (.char 'x'), .note (.char '<')],
      .new (.function 2)⟩, ⟨'A', [.note (.ctrlChar 'r')], .new (.function 2)⟩] [] "w".toList 1
    (by decide) (by decide) rfl ?_ (Or.inr ⟨rfl, rfl⟩) ?_ rfl
  · rw [keys] at replays
    apply replays.1.2
    intro key member
    simp only [List.mem_cons, List.not_mem_nil, or_false] at member
    rcases member with rfl | rfl | rfl
    · right
      simp [Key.char, Key.new]
    · left
      rfl
    · right
      simp [Key.ctrlChar, Key.new]
  · intro recording member
    simp only [List.mem_cons, List.not_mem_nil, or_false] at member
    rcases member with rfl | rfl
    · exact ⟨⟨by decide, by decide, by simp⟩, by decide⟩
    · exact ⟨⟨by decide, by decide, by simp⟩, by decide⟩
  · rw [keys]
    intro key member
    simp only [List.mem_cons, List.not_mem_nil, or_false] at member
    rcases member with rfl | rfl | rfl
    · exact ⟨"x".toList, by decide +kernel⟩
    · exact ⟨"<lt>".toList, by decide +kernel⟩
    · exact ⟨"<C-r>".toList, by decide +kernel⟩

/-- A Shift-modified character and a control character come back as other keys, and a command line
with a key's name in it runs the key. -/
theorem playback_differs :
    ((fresh "w").record ⟨'a', [.note { Key.char 'a' with shift := true }], .new (.function 2)⟩).playback
        'a' 1 = [.char 'a'] ∧
    (fresh "s/x/<CR>/").playback ':' 1 =
      ":s/x/".toList.map Key.char ++ [.new .enter, .char '/', .new .enter] := by
  decide +kernel

end Bemtvi.Core.Macro
