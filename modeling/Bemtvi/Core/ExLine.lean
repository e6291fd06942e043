/-
Module: Bemtvi.Core.ExLine
Purpose: A command line: split at its bars, each command's range and name read off it, and the file
  argument of `:edit` and `:write` expanded.
Trusted boundary: human-reviewed model of bemtvi-core/src/ex_names.rs and of
  bemtvi-core/src/editor/ex.rs:160-483, 485-930, 940-1020 and 1424-1571; a line number fits in an
  `i64`, the commands other than `:write`, `:wq`, `:edit` and `:substitute` are handed on by name, and
  what the commands do is a parameter
Main exports: escapeFileArg, trimExArgs, exNameStart, splitExBar, Editor, parseExRange, expandFileArg,
  Command, executeExOne, Host, executeEx
-/
import Bemtvi.Lib.Utf8Bytes
import Bemtvi.Core.FoldInputs
import Bemtvi.Lib.Word

namespace Bemtvi.Core.ExLine

open Utf8
open Word (saturate)

/-! ### Names -/

/-- `COMMANDS`. -/
def commands : List (String × List String) :=
  [("write", ["w", "write"]), ("quit", ["q", "quit"]), ("wq", ["wq", "x", "xit", "exit"]),
    ("quitall", ["qa", "qall", "quita", "quitall"]), ("wall", ["wa", "wall"]),
    ("xall", ["wqa", "xa", "xall"]), ("edit", ["e", "edit"]), ("enew", ["ene", "enew"]),
    ("split", ["sp", "spl", "split"]), ("vsplit", ["vs", "vsp", "vsplit", "vspl"]),
    ("new", ["new"]), ("vnew", ["vne", "vnew"]), ("close", ["clo", "close"]),
    ("hide", ["hid", "hide"]), ("only", ["on", "only"]),
    ("terminal", ["ter", "term", "termi", "termin", "termina", "terminal"]),
    ("helix", ["helix"]), ("tabedit", ["tabnew", "tabe", "tabed", "tabedit"]),
    ("tabclose", ["tabc", "tabclo", "tabclose"]), ("tabonly", ["tabo", "tabonly"]),
    ("tabmove", ["tabm", "tabmo", "tabmove"]), ("tabnext", ["tabn", "tabnext"]),
    ("tabprevious", ["tabp", "tabN", "tabprevious", "tabNext"]),
    ("tabfirst", ["tabfir", "tabfirst", "tabr", "tabrewind"]), ("tablast", ["tabl", "tablast"]),
    ("tab", ["tab"]), ("drop", ["dr", "dro", "drop"]), ("resize", ["res", "resize"]),
    ("vertical", ["vert", "vertical", "ver"]),
    ("checktime", ["checkt", "checkti", "checktim", "checktime"]),
    ("buffers", ["ls", "buffers", "files"]), ("lspanels", ["lspanels", "panels"]),
    ("buffer", ["b", "bu", "buf", "buffer"]), ("bnext", ["bn", "bnext"]),
    ("bprevious", ["bp", "bN", "bprev", "bprevious", "bNext"]),
    ("bfirst", ["bf", "bfirst", "br", "brewind"]), ("blast", ["bl", "blast"]),
    ("bdelete", ["bd", "bdel", "bdelete", "bw", "bwipe", "bwipeout"]),
    ("cbuffer", ["cb", "cbu", "cbuf", "cbuff", "cbuffe", "cbuffer", "cgetb", "cgetbu", "cgetbuf",
      "cgetbuff", "cgetbuffe", "cgetbuffer"]),
    ("caddbuffer", ["cad", "cadd", "caddb", "caddbu", "caddbuf", "caddbuff", "caddbuffe",
      "caddbuffer"]),
    ("lbuffer", ["lb", "lbu", "lbuf", "lbuff", "lbuffe", "lbuffer", "lgetb", "lgetbu", "lgetbuf",
      "lgetbuff", "lgetbuffe", "lgetbuffer"]),
    ("laddbuffer", ["lad", "ladd", "laddb", "laddbu", "laddbuf", "laddbuff", "laddbuffe",
      "laddbuffer"]),
    ("cfile", ["cf", "cfi", "cfil", "cfile"]),
    ("cgetfile", ["cgetf", "cgetfi", "cgetfil", "cgetfile"]),
    ("caddfile", ["caddf", "caddfi", "caddfil", "caddfile"]),
    ("lfile", ["lf", "lfi", "lfil", "lfile"]),
    ("lgetfile", ["lgetf", "lgetfi", "lgetfil", "lgetfile"]),
    ("laddfile", ["laddf", "laddfi", "laddfil", "laddfile"]), ("copen", ["cope", "copen"]),
    ("cclose", ["ccl", "cclo", "cclos", "cclose"]), ("cwindow", ["cw", "cwin", "cwindow"]),
    ("cc", ["cc"]), ("cnext", ["cn", "cne", "cnex", "cnext"]),
    ("cprevious", ["cp", "cpr", "cprev", "cprevious", "cN", "cNext"]),
    ("cfirst", ["cfir", "cfirst", "cr", "crewind"]), ("clast", ["cla", "clast"]),
    ("cnfile", ["cnf", "cnfi", "cnfil", "cnfile"]), ("cpfile", ["cpf", "cpfi", "cpfil", "cpfile"]),
    ("colder", ["col", "cold", "colde", "colder"]), ("cnewer", ["cnew", "cnewe", "cnewer"]),
    ("lopen", ["lop", "lope", "lopen"]), ("lclose", ["lcl", "lclo", "lclos", "lclose"]),
    ("lwindow", ["lw", "lwin", "lwindow"]), ("ll", ["ll"]),
    ("lnext", ["lne", "lnex", "lnext"]),
    ("lprevious", ["lp", "lpr", "lprev", "lprevious", "lN", "lNext"]),
    ("lfirst", ["lfir", "lfirst", "lr", "lrewind"]), ("llast", ["lla", "llast"]),
    ("lnfile", ["lnf", "lnfi", "lnfil", "lnfile"]), ("lpfile", ["lpf", "lpfi", "lpfil", "lpfile"]),
    ("lolder", ["lol", "lold", "lolde", "lolder"]), ("lnewer", ["lnew", "lnewe", "lnewer"]),
    ("vimgrep", ["vim", "vimg", "vimgr", "vimgre", "vimgrep"]),
    ("vimgrepadd", ["vimgrepa", "vimgrepad", "vimgrepadd"]),
    ("lvimgrep", ["lvim", "lvimg", "lvimgr", "lvimgre", "lvimgrep"]),
    ("lvimgrepadd", ["lvimgrepa", "lvimgrepad", "lvimgrepadd"]), ("lua", ["lua"]),
    ("sleep", ["sleep", "sl"]), ("messages", ["mes", "messages", "message"]),
    ("echo", ["ec", "ech", "echo"]), ("echomsg", ["echom", "echoms", "echomsg"]),
    ("echoerr", ["echoe", "echoer", "echoerr"]),
    ("registers", ["reg", "registers", "di", "dis", "display"]), ("marks", ["marks"]),
    ("jumps", ["ju", "jum", "jump", "jumps"]), ("changes", ["changes"]), ("set", ["set", "se"]),
    ("setlocal", ["setl", "setlo", "setloc", "setloca", "setlocal"]),
    ("setglobal", ["setg", "setgl", "setglo", "setglob", "setgloba", "setglobal"]),
    ("setfiletype", ["setf", "setfi", "setfil", "setfile", "setfilet", "setfilety", "setfiletyp",
      "setfiletype"]),
    ("undo", ["u", "un", "und", "undo"]), ("redo", ["red", "redo"]),
    ("undolist", ["undol", "undoli", "undolis", "undolist"]),
    ("earlier", ["ea", "ear", "earl", "earli", "earlie", "earlier"]),
    ("later", ["lat", "late", "later"]), ("nohlsearch", ["noh", "nohlsearch"]),
    ("global", ["g", "gl", "glo", "glob", "globa", "global"]),
    ("vglobal", ["v", "vg", "vgl", "vglo", "vglob", "vgloba", "vglobal"]),
    ("delete", ["d", "de", "del", "dele", "delet", "delete"]), ("move", ["m", "mo", "mov", "move"]),
    ("copy", ["t", "co", "cop", "copy"]), ("print", ["p", "pr", "pri", "prin", "print"]),
    ("put", ["pu", "put"]), ("highlight", ["hi", "highlight"]),
    ("wshada", ["wsh", "wsha", "wshad", "wshada"]), ("rshada", ["rsh", "rsha", "rshad", "rshada"]),
    ("colorscheme", ["colorscheme", "colo"]), ("make", ["mak", "make"]),
    ("grep", ["gr", "gre", "grep"]), ("lmake", ["lmak", "lmake"]), ("lgrep", ["lgr", "lgre", "lgrep"]),
    ("source", ["so", "sou", "sour", "sourc", "source"]), ("cd", ["cd", "chd", "chdi", "chdir"]),
    ("tcd", ["tc", "tcd", "tch", "tchd", "tchdi", "tchdir"]),
    ("lcd", ["lc", "lcd", "lch", "lchd", "lchdi", "lchdir"]), ("pwd", ["pw", "pwd"]),
    ("reconnect", ["reconnect"]), ("disconnect", ["disconnect"]),
    ("autocmd", ["au", "aut", "auto", "autoc", "autocm", "autocmd"]),
    ("augroup", ["aug", "augr", "augro", "augrou", "augroup"]),
    ("silent", ["sil", "sile", "silen", "silent"]),
    ("doautocmd", ["doau", "doaut", "doauto", "doautoc", "doautocm", "doautocmd"]),
    ("command", ["com", "comm", "comma", "comman", "command"]), ("help", ["h", "help"]),
    ("helptags", ["helpt", "helpta", "helptag", "helptags"]),
    ("normal", ["norm", "norma", "normal"]), ("&", ["&", "&&"]), ("=", ["="]),
    ("substitute", ["s", "su", "sub", "subs", "subst", "substi", "substit", "substitu", "substitut",
      "substitute"])]

/-- `canonical`. -/
def canonical (name : Text) : Option Text :=
  (commands.find? fun entry => entry.2.any fun spelling => spelling.toList == name).map
    fun entry => entry.1.toList

/-- `canonical_or_self`. -/
def canonicalOrSelf (name : Text) : Text := (canonical name).getD name

/-- `is_fname_escaped`, off Windows. -/
def isFnameEscaped (c : Char) : Bool :=
  [' ', '\t', '\n', '*', '?', '[', '\x7b', '`', '$', '\\', '%', '#', '\'', '"', '|', '!', '<'].contains c

/-- A character of a file argument, escaped. -/
def escapeChar (c : Char) : Text := if isFnameEscaped c then ['\\', c] else [c]

/-- Whether a name would be read as an option or a home directory. -/
def guarded (name : Text) : Bool := name.head?.any fun c => ['~', '+', '>', '-'].contains c

/-- `escape_file_arg`. -/
def escapeFileArg (name : Text) : Text :=
  (if guarded name then ['.', '/'] else []) ++ name.flatMap escapeChar

/-! ### White space -/

/-- How many backslashes a text ends with. -/
def backslashes (s : Text) : Nat := (s.reverse.takeWhile (· == '\\')).length

/-- `trim_ex_args`: one white space behind an odd number of backslashes stays. -/
def trimExArgs (s : Text) : Text :=
  let s := trimStart s
  let trimmed := trimEnd s
  if trimmed.length < s.length ∧ backslashes trimmed % 2 = 1 then
    trimmed ++ (s.drop trimmed.length).take 1
  else trimmed

/-- `split_ex`: the name, whether a `!` follows it, and the argument. -/
def splitEx (cmd : Text) : Text × Bool × Text :=
  let name := cmd.takeWhile Char.isAlpha
  match cmd.dropWhile Char.isAlpha with
  | '!' :: args => (name, true, trimExArgs args)
  | args => (name, false, trimExArgs args)

/-! ### Bars -/

/-- `ex_name_matches`. -/
def exNameMatches (name : Text) (full : String) (least : Nat) : Bool :=
  least ≤ name.length && name.isPrefixOf full.toList

/-- `ex_takes_bar`. -/
def exTakesBar (name : Text) : Bool :=
  [("normal", 4), ("global", 1), ("vglobal", 1), ("autocmd", 2), ("command", 3), ("make", 3),
    ("help", 1), ("lua", 3), ("function", 4), ("luado", 5), ("argdo", 5), ("bufdo", 5), ("windo", 5),
    ("tabdo", 5), ("cdo", 3), ("ldo", 3)].any fun (full, least) => exNameMatches name full least

/-- `is_substitute_name`. -/
def isSubstituteName (name : Text) : Bool := exNameMatches name "substitute" 1

/-- `ex_pattern_sections`. -/
def exPatternSections (name : Text) : Nat :=
  if isSubstituteName name then 2
  else if exNameMatches name "vimgrepadd" 3 || exNameMatches name "lvimgrepadd" 4 then 1
  else 0

/-- A byte of an address that stands by itself. -/
def isAddressByte (b : UInt8) : Bool :=
  [' ', '\t', ':', '.', '$', '%', ',', ';', '+', '-'].any (fun c => c.toUInt8 == b) ||
    ('0'.toUInt8 ≤ b && b ≤ '9'.toUInt8)

/-- Where a scan of addresses stands: between two, behind a `'`, in a search, or behind a backslash in
one. -/
inductive AddressMode (α : Type) where
  | between
  | mark
  | search (delim : α)
  | escaped (delim : α)
deriving Repr, DecidableEq

/-- The bytes of the addresses in front. -/
def addressBytes : AddressMode UInt8 → List UInt8 → Nat
  | _, [] => 0
  | .between, b :: bytes =>
      if isAddressByte b then addressBytes .between bytes + 1
      else if b = '\''.toUInt8 then addressBytes .mark bytes + 1
      else if b = '/'.toUInt8 ∨ b = '?'.toUInt8 then addressBytes (.search b) bytes + 1
      else 0
  | .mark, _ :: bytes => addressBytes .between bytes + 1
  | .search d, b :: bytes =>
      if b = d then addressBytes .between bytes + 1
      else if b = '\\'.toUInt8 then addressBytes (.escaped d) bytes + 1
      else addressBytes (.search d) bytes + 1
  | .escaped d, _ :: bytes => addressBytes (.search d) bytes + 1

/-- `ex_name_start`. -/
def exNameStart (cmd : Text) : Nat := addressBytes .between (bytes cmd)

/-- The bytes of so many sections, each up to its delimiter. -/
def sectionBytes (delim : UInt8) : (escaped : Bool) → Nat → List UInt8 → Nat
  | _, 0, _ => 0
  | _, _ + 1, [] => 0
  | true, sections + 1, _ :: bytes => sectionBytes delim false (sections + 1) bytes + 1
  | false, sections + 1, b :: bytes =>
      if b = delim then sectionBytes delim false sections bytes + 1
      else sectionBytes delim (b = '\\'.toUInt8) (sections + 1) bytes + 1

/-- A byte that opens no pattern. -/
def opensNothing (b : UInt8) : Bool :=
  ('0'.toUInt8 ≤ b && b ≤ '9'.toUInt8) || ('A'.toUInt8 ≤ b && b ≤ 'Z'.toUInt8) ||
    ('a'.toUInt8 ≤ b && b ≤ 'z'.toUInt8) || b == '\\'.toUInt8 || b == '"'.toUInt8 ||
    b == '|'.toUInt8

/-- `pattern_sections_end`, counted from the argument. -/
def patternSectionsEnd (bytes : List UInt8) (sections : Nat) : Nat :=
  let blank := fun b : UInt8 => b == ' '.toUInt8 || b == '\t'.toUInt8
  let blanks := (bytes.takeWhile blank).length
  match bytes.dropWhile blank with
  | [] => blanks
  | delim :: bytes =>
      if opensNothing delim then blanks else blanks + (sectionBytes delim false sections bytes + 1)

/-- The byte of the first bar without a backslash. -/
def barByte : (escaped : Bool) → List UInt8 → Option Nat
  | _, [] => none
  | true, _ :: bytes => (barByte false bytes).map (· + 1)
  | false, b :: bytes =>
      if b = '|'.toUInt8 then some 0 else (barByte (b = '\\'.toUInt8) bytes).map (· + 1)

/-- The letters in front. -/
def letterBytes (bytes : List UInt8) : Nat :=
  (bytes.takeWhile fun b =>
    ('A'.toUInt8 ≤ b && b ≤ 'Z'.toUInt8) || ('a'.toUInt8 ≤ b && b ≤ 'z'.toUInt8)).length

/-- The parts before and behind the first bar from a byte on. -/
def cutAtBar (cmd : Text) (start : Nat) : Option (Option (Text × Text)) :=
  match barByte false ((bytes cmd).drop start) with
  | none => some none
  | some bar =>
      (cut cmd (start + bar)).bind fun (seg, _) =>
        (cut cmd (start + bar + 1)).map fun (_, tail) => some (seg, tail)

/-- `split_ex_bar`; `none` where a slice falls inside a character. -/
def splitExBar (cmd : Text) : Option (Option (Text × Text)) :=
  let i := exNameStart cmd
  let first := ((bytes cmd).drop i).head?
  if first = some '!'.toUInt8 ∨ first = some '='.toUInt8 then some none
  else
    (cut cmd i).bind fun (_, rest) =>
      (cut rest (letterBytes (bytes rest))).bind fun (name, args) =>
        if exTakesBar name then some none
        else
          let sections := exPatternSections name
          cutAtBar cmd <|
            if sections > 0 then i + size name + patternSectionsEnd (bytes args) sections else i

/-! ### Substitutes -/

/-- A section of a substitute, without the backslashes before its delimiter, and what follows the
delimiter that ends it. -/
def readSection (delim : Char) : (escaped : Bool) → Text → Text × Option Text
  | false, [] => ([], none)
  | true, [] => (['\\'], none)
  | true, n :: body =>
      let read := readSection delim false body
      (if n = delim then n :: read.1 else '\\' :: n :: read.1, read.2)
  | false, c :: body =>
      if c = '\\' then readSection delim true body
      else if c = delim then ([], some body)
      else
        let read := readSection delim false body
        (c :: read.1, read.2)

/-- `split_substitute`: the pattern, the replacement and the flags. -/
def splitSubstitute (body : Text) (delim : Char) : Text × Text × Text :=
  let pat := readSection delim false body
  let rep := (pat.2.map (readSection delim false)).getD ([], none)
  (pat.1, rep.1, rep.2.getD [])

/-! ### Ranges -/

/-- `is_jumpable_mark`: the names a mark is set by. -/
def isJumpableMark (c : Char) : Bool :=
  c.isAlphanum || ['\'', '`', '.', '^', '[', ']', '<', '>', '"'].contains c

/-- What of the editor a command line is read against. -/
structure Editor where
  cursorLine : Nat
  lastLine : Nat
  /-- The line of a mark in the current buffer. -/
  marks : Char → Option Nat
  marks_named : ∀ name, (marks name).isSome → isJumpableMark name
  home : Option Text
  path : Option Text
  alternateName : Option Text
  /-- `disabled_commands`, by their canonical names. -/
  disabled : List Text
  /-- `Encoding::from_label` knows the label. -/
  knownEncoding : Text → Bool
  /-- `char::is_alphanumeric`. -/
  alphanumeric : Char → Bool
  alphanumeric_ascii : ∀ c, c.toNat < 128 → alphanumeric c = c.isAlphanum

/-- An editor on an empty buffer without a name. -/
def Editor.empty : Editor where
  cursorLine := 0
  lastLine := 0
  marks := fun _ => none
  marks_named := nofun
  home := none
  path := none
  alternateName := none
  disabled := []
  knownEncoding := fun _ => false
  alphanumeric := Char.isAlphanum
  alphanumeric_ascii := fun _ _ => rfl

/-- The delimiter `ex_substitute` reads off its argument, and what follows it. -/
def Editor.substituteBody (ed : Editor) (args : Text) : Option (Char × Text) :=
  match trim args with
  | [] => none
  | c :: body => if ed.alphanumeric c ∨ c = '\\' ∨ c = '"' then none else some (c, body)

/-- `ExRange`. -/
structure ExRange where
  lo : Nat
  hi : Nat
  explicit : Bool
deriving Repr, DecidableEq

/-- The digits in front, as a saturating number, and what follows them. -/
def readDigits (n : Int) : Text → Int × Text
  | [] => (n, [])
  | c :: text =>
      if c.isDigit then readDigits (saturate (saturate (n * 10) + (c.toNat - '0'.toNat : Nat))) text
      else (n, c :: text)

theorem length_readDigits (n : Int) (text : Text) : (readDigits n text).2.length ≤ text.length := by
  induction text generalizing n with
  | nil => exact Nat.le_refl _
  | cons c text ih =>
      rw [readDigits]
      split
      · exact Nat.le_succ_of_le (ih _)
      · exact Nat.le_refl _

/-- The offsets of an address, each a sign and its number: 1 without digits. -/
def readOffsets (line : Int) : Text → Int × Text
  | [] => (line, [])
  | sign :: text =>
      if sign = '+' ∨ sign = '-' then
        let read := readDigits 0 text
        let n := if read.2.length = text.length then 1 else read.1
        readOffsets (saturate (if sign = '+' then line + n else line - n)) read.2
      else (line, sign :: text)
termination_by text => text.length
decreasing_by exact Nat.lt_succ_of_le (length_readDigits 0 text)

/-- The byte after a `'`, as a character: of a character of several bytes, its first. -/
def markName (c : Char) : Char := Char.ofNat (leadByte c).toNat

/-- The offsets behind a base, if there is one: without either there is no address. -/
def addressOffsets (cmd : Text) (line : Int) (haveBase : Bool) (rest : Text) : Option Int × Text :=
  let read := readOffsets line rest
  if haveBase = false ∧ read.2.length = rest.length then (none, cmd) else (some read.1, read.2)

/-- `parse_ex_address_raw`. -/
def parseExAddressRaw (ed : Editor) (base : Nat) (cmd : Text) : Except Text (Option Int × Text) :=
  match cmd with
  | [] => .ok (none, [])
  | c :: rest =>
      if c = '.' then .ok (addressOffsets cmd base true rest)
      else if c = '$' then .ok (addressOffsets cmd ed.lastLine true rest)
      else if c = '\'' then
        match rest.head?.bind fun m => ed.marks (markName m) with
        | some line => .ok (addressOffsets cmd line true rest.tail)
        | none => .error "E20: Mark not set".toList
      else if c.isDigit then
        let read := readDigits 0 cmd
        .ok (addressOffsets cmd (read.1 - 1) true read.2)
      else .ok (addressOffsets cmd base false cmd)

/-- `parse_ex_address`. -/
def parseExAddress (ed : Editor) (base : Nat) (cmd : Text) : Except Text (Option Nat × Text) :=
  (parseExAddressRaw ed base cmd).map fun (raw, rest) =>
    (raw.map fun line : Int => (max 0 (min line (ed.lastLine : Int))).toNat, rest)

/-- The second address of a range, behind its separator. -/
def rangeEnd (ed : Editor) (lo : Nat) (rest : Text) : Except Text (Nat × Text) :=
  match rest with
  | [] => .ok (lo, [])
  | c :: rest =>
      if c = ',' ∨ c = ';' then
        (parseExAddress ed (if c = ';' then lo else ed.cursorLine) rest).map fun (hi, rest) =>
          (hi.getD ed.cursorLine, rest)
      else .ok (lo, c :: rest)

/-- `parse_ex_range`. -/
def parseExRange (ed : Editor) (cmd : Text) : Except Text (ExRange × Text) :=
  let cur := ed.cursorLine
  if cmd.head? = some '%' then .ok (⟨0, ed.lastLine, true⟩, cmd.tail)
  else
    (parseExAddress ed cur cmd).bind fun (first, rest) =>
      if first = none ∧ rest.head? ≠ some ',' ∧ rest.head? ≠ some ';' then
        .ok (⟨cur, cur, false⟩, cmd)
      else
        let lo := first.getD cur
        (rangeEnd ed lo rest).bind fun (hi, rest) =>
          if lo > hi then .error "E493: Backwards range given".toList
          else .ok (⟨lo, hi, true⟩, rest)

/-! ### File arguments -/

/-- `rfind` of a character: what stands before it, and behind it. -/
def splitLast (c : Char) (text : Text) : Option (Text × Text) :=
  match text.reverse.dropWhile (· != c) with
  | [] => none
  | _ :: before => some (before.reverse, (text.reverse.takeWhile (· != c)).reverse)

/-- `fmod_head`. -/
def fmodHead (f : Text) : Text :=
  match splitLast '/' f with
  | none => ['.']
  | some ([], _) => ['/']
  | some (before, _) => before

/-- `fmod_tail`. -/
def fmodTail (f : Text) : Text := ((splitLast '/' f).map (·.2)).getD f

/-- `fmod_root`: a leading dot opens no extension. -/
def fmodRoot (f : Text) : Text :=
  let dir := ((splitLast '/' f).map fun (before, _) => before ++ ['/']).getD []
  match fmodTail f with
  | [] => f
  | c :: tail => ((splitLast '.' tail).map fun (before, _) => dir ++ c :: before).getD f

/-- `fmod_ext`. -/
def fmodExt (f : Text) (k : Nat) : Text :=
  let pieces := (fmodTail f).tail.splitOn '.'
  List.intercalate ['.'] (pieces.drop (pieces.length - 1 - k + 1))

/-- One modifier, or a run of `e`s. -/
def applyFileMod (fname : Text) : List Char → Text
  | ['h'] => fmodHead fname
  | ['t'] => fmodTail fname
  | ['r'] => fmodRoot fname
  | 'e' :: more => fmodExt fname (more.length + 1)
  | _ => fname

/-- `apply_file_mods`. -/
def applyFileMods (fname : Text) (mods : List Char) : Text :=
  (mods.splitBy fun m m' => m == 'e' && m' == 'e').foldl applyFileMod fname

/-- The run of modifiers behind a `%` or a `#`, and what follows it. -/
def readFileMods : Text → Except Text (List Char × Text)
  | ':' :: m :: text =>
      if ['h', 't', 'r', 'e'].contains m then
        (readFileMods text).map fun (mods, rest) => (m :: mods, rest)
      else if ['p', '~', '.'].contains m then
        .error ("E499: ':".toList ++ m :: ("' filename modifier is not supported in " ++
          "command-line expansion (needs the working directory)").toList)
      else .ok ([], ':' :: m :: text)
  | text => .ok ([], text)

theorem length_readFileMods {text rest : Text} {mods : List Char}
    (read : readFileMods text = .ok (mods, rest)) : rest.length ≤ text.length := by
  induction text using readFileMods.induct generalizing mods rest with
  | case1 m text known ih =>
      rw [readFileMods, if_pos known] at read
      cases inner : readFileMods text with
      | error e =>
          rw [inner] at read
          cases read
      | ok found =>
          rw [inner] at read
          cases read
          have shorter := ih inner
          simp only [List.length_cons]
          omega
  | case2 m text unknown absolute =>
      rw [readFileMods, if_neg unknown, if_pos absolute] at read
      cases read
  | case3 m text unknown other =>
      rw [readFileMods, if_neg unknown, if_neg other] at read
      cases read
      exact Nat.le_refl _
  | case4 text other =>
      rw [readFileMods] at read
      · cases read
        exact Nat.le_refl _
      · exact other

/-- `expand_leading_tilde`. -/
def expandLeadingTilde (home : Option Text) (arg : Text) : Text :=
  match arg with
  | '~' :: rest => if rest = [] ∨ rest.head? = some '/' then (home.map (· ++ rest)).getD arg else arg
  | arg => arg

/-- `current_file_name`. -/
def Editor.currentFileName (ed : Editor) : Option Text := ed.path.filter (· ≠ [])

/-- `alternate_file_name`. -/
def Editor.alternateFileName (ed : Editor) : Option Text := ed.alternateName.filter (· ≠ [])

/-- The file a `%` or a `#` stands for. -/
def Editor.fileToken (ed : Editor) (c : Char) : Except Text Text :=
  if c = '%' then ed.currentFileName.elim (.error "E499: Empty file name for '%'".toList) .ok
  else
    ed.alternateFileName.elim (.error "E194: No alternate file name to substitute for '#'".toList) .ok

/-- The loop of `expand_file_arg`. -/
def expandChars (ed : Editor) : Text → Except Text Text
  | [] => .ok []
  | c :: text =>
      if c = '\\' ∧ text.head?.any isFnameEscaped then
        (expandChars ed text.tail).map (text.headD ' ' :: ·)
      else if c ≠ '%' ∧ c ≠ '#' then (expandChars ed text).map (c :: ·)
      else
        (ed.fileToken c).bind fun name =>
          match _read : readFileMods text with
          | .error e => .error e
          | .ok (mods, rest) => (expandChars ed rest).map (applyFileMods name mods ++ ·)
termination_by text => text.length
decreasing_by
  · rw [List.length_tail, List.length_cons]
    omega
  · exact Nat.lt_succ_self _
  · exact Nat.lt_succ_of_le (length_readFileMods _read)

/-- `expand_file_arg`. -/
def expandFileArg (ed : Editor) (arg : Text) : Except Text Text :=
  expandChars ed (expandLeadingTilde ed.home arg)

/-- The loop of `parse_edit_plusplus`. -/
def readPlusplus (ed : Editor) (enc : Option Text) (rest : Text) : Except Text (Option Text × Text) :=
  match rest with
  | '+' :: '+' :: after =>
      let tok := after.takeWhile fun c => !isWhitespace c
      let key := tok.takeWhile (· != '=')
      match tok.dropWhile (· != '=') with
      | [] => .error ("E474: Invalid argument: ++".toList ++ tok)
      | _ :: val =>
          if key = "enc".toList ∨ key = "encoding".toList then
            if ed.knownEncoding val then
              readPlusplus ed (some val) (trimStart (after.dropWhile fun c => !isWhitespace c))
            else .error ("E474: Invalid argument: ++enc=".toList ++ val)
          else .error ("E474: Invalid argument: ++".toList ++ tok)
  | rest => .ok (enc, trim rest)
termination_by rest.length
decreasing_by
  have first : (after.dropWhile fun c => !isWhitespace c).length ≤ after.length :=
    (List.dropWhile_sublist _).length_le
  have second : (trimStart (after.dropWhile fun c => !isWhitespace c)).length ≤
      (after.dropWhile fun c => !isWhitespace c).length := (List.dropWhile_sublist _).length_le
  simp only [List.length_cons]
  omega

/-- `parse_edit_plusplus`. -/
def parseEditPlusplus (ed : Editor) (args : Text) : Except Text (Option Text × Text) :=
  readPlusplus ed none (trimStart args)

/-! ### Commands -/

/-- What a command line hands on. -/
inductive Command where
  | nothing
  | echo (message : Text)
  | jump (line : Nat)
  | repeatSubstitute (range : ExRange) (extra : Text) (keepFlags : Bool)
  | printLuaExpr (expr : Text)
  | exNormal (range : ExRange) (bang : Bool) (body : Text)
  | exWrite (args : Text) (bang : Bool) (thenQuit : Option Bool)
  /-- `ex_edit_file`, with `forced_read_encoding`. -/
  | exEditFile (args : Text) (bang : Bool) (forced : Option Text)
  | exSubstitute (range : ExRange) (args : Text)
  /-- Every other arm, and the commands the core does not know. -/
  | other (name : Text) (bang : Bool) (args : Text) (range : ExRange)
deriving Repr, DecidableEq

/-- `parse_normal_prefix`. -/
def parseNormalPrefix (rest : Text) : Option (Bool × Text) :=
  let names := ["normal".toList, "norma".toList, "norm".toList]
  (names.find? (·.isPrefixOf rest)).bind fun name =>
    let space := fun text : Text => if text.head? = some ' ' then text.tail else text
    match rest.drop name.length with
    | '!' :: body => some (true, space body)
    | body => if body = [] ∨ body.head? = some ' ' then some (false, space body) else none

/-- `refuse_disabled`. -/
def Editor.refuses (ed : Editor) (typed : Text) : Bool := ed.disabled.contains (canonicalOrSelf typed)

/-- A command, unless it is disabled. -/
def Editor.unlessDisabled (ed : Editor) (typed : Text) (command : Command) : Command :=
  if ed.refuses typed then
    .echo ("E5800: :".toList ++ typed ++ " is disabled in this editor".toList)
  else command

/-- `ex_edit`. -/
def exEdit (ed : Editor) (args : Text) (bang : Bool) : Command :=
  match parseEditPlusplus ed args with
  | .error e => .echo e
  | .ok (forced, file) =>
      if file = [] then
        match ed.currentFileName with
        | none => .echo "E32: No file name".toList
        | some name => .exEditFile name bang forced
      else .exEditFile file bang forced

/-- A command with its file argument expanded. -/
def withFileArg (ed : Editor) (args : Text) (command : Text → Command) : Command :=
  match expandFileArg ed args with
  | .error e => .echo e
  | .ok a => command a

/-- The arms of `execute_ex_one`, behind the range. -/
def dispatch (ed : Editor) (range : ExRange) (rest : Text) : Command :=
  match rest with
  | '&' :: '&' :: after =>
      ed.unlessDisabled "&&".toList (.repeatSubstitute range (trim after) true)
  | '&' :: after => ed.unlessDisabled "&".toList (.repeatSubstitute range (trim after) false)
  | '=' :: expr => ed.unlessDisabled "=".toList (.printLuaExpr expr)
  | rest =>
      match parseNormalPrefix rest with
      | some (bang, body) => ed.unlessDisabled "normal".toList (.exNormal range bang body)
      | none =>
          let (typed, bang, args) := splitEx rest
          let name := canonicalOrSelf typed
          ed.unlessDisabled typed <|
            if name = "write".toList then withFileArg ed args fun a => .exWrite a bang none
            else if name = "wq".toList then withFileArg ed args fun a => .exWrite a bang (some bang)
            else if name = "edit".toList then withFileArg ed args fun a => exEdit ed a bang
            else if isSubstituteName name then .exSubstitute range args
            else .other name bang args range

/-- `execute_ex_one`. -/
def executeExOne (ed : Editor) (raw : Text) : Command :=
  let cmd := trimExArgs raw
  if cmd = [] then .nothing
  else
    let lead := trimStart raw
    -- `:normal` keeps the white space its argument ends with.
    let untrimmed : Option Command :=
      if cmd.length < lead.length then
        match parseExRange ed lead with
        | .error _ => none
        | .ok (range, rest) =>
            (parseNormalPrefix (trimStart rest)).map fun (bang, body) =>
              ed.unlessDisabled "normal".toList (.exNormal range bang body)
      else none
    untrimmed.getD <|
      match parseExRange ed cmd with
      | .error e => .echo e
      | .ok (range, rest) =>
          let rest := trimStart rest
          if rest = [] then if range.explicit then .jump range.hi else .nothing
          else dispatch ed range rest

/-- What runs the commands, over a state of any kind. -/
structure Host (State : Type) where
  editor : State → Editor
  run : State → Command → State
  messageError : State → Bool
  clearError : State → State
  /-- The length of `deferred_commands`. -/
  deferred : State → Nat
  /-- The rest of the line, put behind a deferred command. -/
  deferChain : State → Text → State

theorem length_cutAtBar {cmd seg tail : Text} {start : Nat}
    (parts : cutAtBar cmd start = some (some (seg, tail))) : tail.length < cmd.length := by
  rw [cutAtBar] at parts
  split at parts
  · cases parts
  · simp only [Option.bind_eq_some_iff, Option.map_eq_some_iff] at parts
    obtain ⟨_, _, ⟨front, tail'⟩, here, same⟩ := parts
    obtain ⟨rfl, length⟩ := cut_eq_some.1 here
    cases same
    cases front with
    | nil => cases length
    | cons c front =>
        rw [List.length_append, List.length_cons, Nat.add_comm]
        exact Nat.lt_add_of_pos_right (Nat.succ_pos _)

theorem length_splitExBar {cmd seg tail : Text} (parts : splitExBar cmd = some (some (seg, tail))) :
    tail.length < cmd.length := by
  simp only [splitExBar] at parts
  split at parts
  · cases parts
  · simp only [Option.bind_eq_some_iff] at parts
    obtain ⟨_, _, _, _, parts⟩ := parts
    split at parts
    · cases parts
    · exact length_cutAtBar parts

/-- The loop of `execute_ex`. -/
def runSegments {State : Type} (host : Host State) (s : State) (rest : Text) : Option State :=
  match _parts : splitExBar rest with
  | none => none
  | some none => some (host.run s (executeExOne (host.editor s) rest))
  | some (some (seg, tail)) =>
      let s' := host.run s (executeExOne (host.editor s) seg)
      if host.messageError s' then some s'
      else if host.deferred s < host.deferred s' then some (host.deferChain s' tail)
      else runSegments host s' tail
termination_by rest.length
decreasing_by exact length_splitExBar _parts

/-- `execute_ex`. -/
def executeEx {State : Type} (host : Host State) (s : State) (raw : Text) : Option State :=
  match splitExBar raw with
  | none => none
  | some none => some (host.run s (executeExOne (host.editor s) raw))
  | some (some _) => runSegments host (host.clearError s) raw

end Bemtvi.Core.ExLine
