/-
Module: Bemtvi.Core.FileText
Purpose: A file's bytes as a buffer and back: the line ending of the first break, the flag for a last
  line without one, the newline the text always ends with, and which files a load and a save leave
  as they are.
Trusted boundary: human-reviewed model of bemtvi-core/src/buffer.rs:455-495, 1150-1256, 1355-1388 and
  1478-1494; the disk snapshot is left out
Main exports: detectFileformat, normalizeEol, Codec.encoder, Buffer.fromFile, save_returns_bytes
-/
import Bemtvi.Core.Encoding
import Bemtvi.Core.Save

namespace Bemtvi.Core

open Utf8

/-- `detect_fileformat`: the first line break decides. -/
def detectFileformat : Text → FileFormat
  | [] => .unix
  | '\r' :: text => if text.head? = some '\n' then .dos else .mac
  | '\n' :: _ => .unix
  | _ :: text => detectFileformat text

/-- `replace("\r\n", "\n")`. -/
@[grind =]
def joinBreaks : Text → Text
  | [] => []
  | '\r' :: '\n' :: text => '\n' :: joinBreaks text
  | c :: text => c :: joinBreaks text

/-- `replace('\n', "\r\n")`. -/
def splitBreaks (text : Text) : Text :=
  text.flatMap fun c => if c = '\n' then ['\r', '\n'] else [c]

/-- `replace(a, b)`, of characters. -/
def replaceChar (a b : Char) (text : Text) : Text := text.map fun c => if c = a then b else c

/-- `normalize_eol`. -/
def normalizeEol (text : Text) : FileFormat → Text
  | .unix => text
  | .dos => joinBreaks text
  | .mac => replaceChar '\r' '\n' text

/-- `ends_with_line_break`. -/
def endsWithLineBreak (text : Text) : Bool :=
  text.getLast? == some '\n' || text.getLast? == some '\r'

/-- `encode_from_str` by the encoding's name; nothing on an error, or for an encoding that is none of
those modelled. -/
def Codec.encoder (codec : Codec) : Encoder := fun text name bomb =>
  (Encoding.ofName name).bind fun enc => (encodeFromStr codec text enc bomb).toOption

namespace Buffer

/-- `from_file`: no bytes for a file that does not exist; `none` when the codec refuses every
encoding. -/
def fromFile (codec : Codec) (bytes : Option (List UInt8)) (fileencodings : List String) :
    Option (Buffer Unit) :=
  let fresh : BufferOptions :=
    { endofline := false
      fixendofline := true
      fileformat := .unix
      fileencoding := Encoding.utf8.name
      bomb := false }
  match bytes with
  | none => some { ofText (ensureTrailingNewline []) with options := fresh }
  | some bytes =>
      match decodeToRope codec bytes fileencodings with
      | none => none
      | some (decoded, fileencoding, bomb) =>
          let fileformat := detectFileformat decoded
          let options :=
            { fresh with
              fileencoding := fileencoding.name
              bomb := bomb
              fileformat := fileformat
              endofline := endsWithLineBreak decoded }
          some { ofText (ensureTrailingNewline (normalizeEol decoded fileformat)) with
            options := options }

/-- `:set nofixendofline`. -/
def noFixendofline (buffer : Buffer Unit) : Buffer Unit :=
  { buffer with options := { buffer.options with fixendofline := false } }

end Buffer

/-! ### Line endings there and back -/

/-- `\r` and `\n` stand only together. -/
@[grind =]
def pairedBreaks : Text → Bool
  | [] => true
  | '\r' :: '\n' :: text => pairedBreaks text
  | c :: text => c != '\r' && c != '\n' && pairedBreaks text

/-- The breaks of a text are all of the kind its first one is. -/
def Uniform (text : Text) : Prop :=
  match detectFileformat text with
  | .unix => True
  | .dos => pairedBreaks text = true
  | .mac => '\n' ∉ text

variable {text : Text}

theorem splitBreaks_joinBreaks (paired : pairedBreaks text = true) :
    splitBreaks (joinBreaks text) = text := by
  induction text using joinBreaks.induct with
  | case1 => rfl
  | case2 text ih =>
      rw [pairedBreaks] at paired
      rw [joinBreaks, splitBreaks, List.flatMap_cons]
      exact congrArg (['\r', '\n'] ++ ·) (ih paired)
  | case3 c text separate ih =>
      rw [pairedBreaks] at paired
      · simp only [Bool.and_eq_true, bne_iff_ne, ne_eq] at paired
        obtain ⟨⟨-, not_newline⟩, paired⟩ := paired
        rw [joinBreaks]
        · rw [splitBreaks, List.flatMap_cons, if_neg not_newline]
          exact congrArg ([c] ++ ·) (ih paired)
        · exact separate
      · exact separate

theorem replaceChar_back {a b : Char} (fresh : b ∉ text) :
    replaceChar b a (replaceChar a b text) = text := by
  rw [replaceChar, replaceChar, List.map_map]
  refine (List.map_congr_left fun c mem => ?_).trans (List.map_id text)
  have other : c ≠ b := fun same => fresh (same ▸ mem)
  by_cases here : c = a
  · simp [here]
  · simp [here, other]

theorem joinBreaks_getLast (paired : pairedBreaks text = true) :
    (joinBreaks text).getLast? = text.getLast? := by
  induction text using joinBreaks.induct with
  | case1 => rfl
  | case2 text ih =>
      rw [pairedBreaks] at paired
      rw [joinBreaks, List.getLast?_cons, List.getLast?_cons, List.getLast?_cons, ih paired]
      rfl
  | case3 c text separate ih =>
      rw [pairedBreaks] at paired
      · simp only [Bool.and_eq_true] at paired
        rw [joinBreaks]
        · rw [List.getLast?_cons, List.getLast?_cons, ih paired.2]
        · exact separate
      · exact separate

theorem paired_last (paired : pairedBreaks text = true) : text.getLast? ≠ some '\r' := by
  induction text using joinBreaks.induct with
  | case1 => simp
  | case2 text ih =>
      rw [pairedBreaks] at paired
      rw [List.getLast?_cons, List.getLast?_cons]
      cases last : text.getLast? with
      | none => simp
      | some c =>
          have other := ih paired
          rw [last] at other
          simpa using other
  | case3 c text separate ih =>
      rw [pairedBreaks] at paired
      · simp only [Bool.and_eq_true, bne_iff_ne, ne_eq] at paired
        rw [List.getLast?_cons]
        cases last : text.getLast? with
        | none => simpa using paired.1.1
        | some c' =>
            have other := ih paired.2
            rw [last] at other
            simpa using other
      · exact separate

/-! ### A load and a save -/

/-- What is written behind a load with no edit, before it is encoded. -/
def writtenBack (decoded : Text) : Text :=
  let fileformat := detectFileformat decoded
  let rope := ensureTrailingNewline (normalizeEol decoded fileformat)
  let raw := if endsWithLineBreak decoded then rope else rope.dropLast
  match fileformat with
  | .unix => raw
  | .dos => splitBreaks raw
  | .mac => replaceChar '\n' '\r' raw

/-- The newline the text is made to end with is taken away again when the file had none. -/
theorem drop_ensured {ends : Bool} (reads : ends = true ↔ text.getLast? = some '\n') :
    (if ends then ensureTrailingNewline text else (ensureTrailingNewline text).dropLast) = text := by
  cases ends with
  | true => rw [if_pos rfl, ensureTrailingNewline, if_pos (reads.1 rfl)]
  | false =>
      have open_ : text.getLast? ≠ some '\n' := fun last => by
        have here := reads.2 last
        cases here
      rw [if_neg (by decide), ensureTrailingNewline, if_neg open_, List.dropLast_concat]

theorem endsWithLineBreak_iff :
    endsWithLineBreak text = true ↔ text.getLast? = some '\n' ∨ text.getLast? = some '\r' := by
  simp [endsWithLineBreak]

theorem replaced_last (fresh : '\n' ∉ text) :
    endsWithLineBreak text = true ↔ (replaceChar '\r' '\n' text).getLast? = some '\n' := by
  rw [endsWithLineBreak_iff, replaceChar, List.getLast?_map, Option.map_eq_some_iff]
  constructor
  · rintro (newline | carriage)
    · exact absurd (List.mem_of_getLast? newline) fresh
    · exact ⟨'\r', carriage, rfl⟩
  · rintro ⟨c, last, newline⟩
    split at newline
    · rename_i carriage
      rw [last, carriage]
      exact Or.inr rfl
    · rw [newline] at last
      exact absurd (List.mem_of_getLast? last) fresh

/-- A text with breaks of one kind is written back as it was read, but for a `\r` at the end of a
text whose first break is a `\n`. -/
theorem writtenBack_eq {decoded : Text} (uniform : Uniform decoded) :
    writtenBack decoded = decoded ↔
      ¬ (detectFileformat decoded = .unix ∧ decoded.getLast? = some '\r') := by
  rw [Uniform] at uniform
  rw [writtenBack]
  cases format : detectFileformat decoded with
  | unix =>
      simp only [normalizeEol, true_and]
      by_cases carriage : decoded.getLast? = some '\r'
      · have ends := endsWithLineBreak_iff.2 (Or.inr carriage)
        simp [ends, ensureTrailingNewline, carriage]
      · have reads : endsWithLineBreak decoded = true ↔ decoded.getLast? = some '\n' := by
          rw [endsWithLineBreak_iff]
          simp [carriage]
        rw [drop_ensured reads]
        simp [carriage]
  | dos =>
      simp only [format] at uniform
      have reads : endsWithLineBreak decoded = true ↔
          (joinBreaks decoded).getLast? = some '\n' := by
        rw [endsWithLineBreak_iff, joinBreaks_getLast uniform]
        simp [paired_last uniform]
      simp only [normalizeEol]
      rw [drop_ensured reads, splitBreaks_joinBreaks uniform]
      simp
  | mac =>
      simp only [format] at uniform
      simp only [normalizeEol]
      rw [drop_ensured (replaced_last uniform), replaceChar_back uniform]
      simp

/-- The buffer a file's bytes load into. -/
def loaded (decoded : Text) (enc : Encoding) (bomb : Bool) : Buffer Unit :=
  { Buffer.ofText (ensureTrailingNewline (normalizeEol decoded (detectFileformat decoded))) with
    options :=
      { endofline := endsWithLineBreak decoded
        fixendofline := true
        fileformat := detectFileformat decoded
        fileencoding := enc.name
        bomb := bomb } }

theorem fromFile_eq {codec : Codec} {bytes : List UInt8} {fileencodings : List String}
    {decoded : Text} {enc : Encoding} {bomb : Bool}
    (reads : decodeToRope codec bytes fileencodings = some (decoded, enc, bomb)) :
    Buffer.fromFile codec (some bytes) fileencodings = some (loaded decoded enc bomb) := by
  rw [Buffer.fromFile]
  simp only [reads]
  rfl

theorem loaded_saves (codec : Codec) (decoded : Text) (enc : Encoding) (bomb : Bool) :
    (loaded decoded enc bomb).noFixendofline.toSaveBytes codec.encoder =
      (encodeFromStr codec (writtenBack decoded) enc bomb).toOption := by
  have raw : (loaded decoded enc bomb).noFixendofline.saveText =
      if endsWithLineBreak decoded then
        ensureTrailingNewline (normalizeEol decoded (detectFileformat decoded))
      else (ensureTrailingNewline (normalizeEol decoded (detectFileformat decoded))).dropLast := by
    cases ends : endsWithLineBreak decoded <;>
      simp [Buffer.saveText, Buffer.noFixendofline, Buffer.documentText, loaded, Buffer.ofText, ends]
  rw [Buffer.toSaveBytes, raw, Codec.encoder]
  simp only [Buffer.noFixendofline, loaded, Encoding.ofName_name, Option.bind_some]
  rfl

theorem toOption_eq_some {ε α : Type} {result : Except ε α} {value : α} :
    result.toOption = some value ↔ result = .ok value := by
  cases result with
  | error e => simp [Except.toOption]
  | ok other => simp [Except.toOption]

/-- **Loading and saving.**  A file whose text has breaks of one kind is saved as the bytes it was
loaded from, with `'fixendofline'` off and no edit, exactly when it is not a text whose first break
is a `\n` and that ends with a `\r`. -/
theorem save_returns_bytes (codec : Codec) (strict : codec.Strict) (bytes : List UInt8)
    (fileencodings : List String) :
    ∃ decoded enc bomb buffer, decodeToRope codec bytes fileencodings = some (decoded, enc, bomb) ∧
      Buffer.fromFile codec (some bytes) fileencodings = some buffer ∧
      (Uniform decoded →
        (buffer.noFixendofline.toSaveBytes codec.encoder = some bytes ↔
          ¬ (detectFileformat decoded = .unix ∧ decoded.getLast? = some '\r'))) := by
  obtain ⟨decoded, enc, bomb, reads, encodes⟩ := decoded_encodes strict bytes fileencodings
  refine ⟨decoded, enc, bomb, _, reads, fromFile_eq reads, fun uniform => ?_⟩
  rw [← writtenBack_eq uniform, loaded_saves, toOption_eq_some]
  constructor
  · intro saved
    exact encodeFromStr_inj strict saved encodes
  · intro same
    rw [same]
    exact encodes

/-- A file in UTF-8 with a mark, of one line that does not end. -/
theorem save_returns_bytes_marked :
    ∃ decoded enc bomb buffer,
      decodeToRope webCodec [0xEF, 0xBB, 0xBF, 0x61] ["ucs-bom", "utf-8", "latin1"] =
        some (decoded, enc, bomb) ∧
      Buffer.fromFile webCodec (some [0xEF, 0xBB, 0xBF, 0x61]) ["ucs-bom", "utf-8", "latin1"] =
        some buffer ∧
      (Uniform decoded →
        (buffer.noFixendofline.toSaveBytes webCodec.encoder = some [0xEF, 0xBB, 0xBF, 0x61] ↔
          ¬ (detectFileformat decoded = .unix ∧ decoded.getLast? = some '\r'))) :=
  save_returns_bytes webCodec webCodec_strict _ _

/-- A line feed after the last `\r`. -/
theorem carriage_gains_newline :
    ∃ buffer, Buffer.fromFile webCodec (some [0x61, 0x0A, 0x62, 0x0D]) ["utf-8"] = some buffer ∧
      Uniform ['a', '\n', 'b', '\r'] ∧
      buffer.noFixendofline.toSaveBytes webCodec.encoder = some [0x61, 0x0A, 0x62, 0x0D, 0x0A] := by
  have decoded : webCodec.decode .utf8 [0x61, 0x0A, 0x62, 0x0D] =
      some ['a', '\n', 'b', '\r'] :=
    (webCodec_strict.decode_utf8 _ _).2 rfl
  have reads : decodeToRope webCodec [0x61, 0x0A, 0x62, 0x0D] ["utf-8"] =
      some (['a', '\n', 'b', '\r'], .utf8, false) := by
    have label : webCodec.forLabel "utf-8" = some .utf8 := rfl
    rw [decodeToRope, if_neg (by decide), label]
    simp only [decoded]
  refine ⟨_, fromFile_eq reads, trivial, ?_⟩
  rw [loaded_saves]
  rfl

end Bemtvi.Core
