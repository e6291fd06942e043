/-
Module: Bemtvi.Core.PathStyle
Purpose: Paths in the syntax of a daemon's filesystem: their roots and components, joining and
  normalizing them, and the `file` URIs that name them.
Trusted boundary: human-reviewed model of bemtvi-core/src/pathstyle.rs:16-24 and 53-351; a path is
  its characters, and `native` and the wire names are left out
Main exports: PathStyle, splitRoot, isAbsolute, join, normalize, parent, fileName, toFileUri,
  fromFileUri
-/
import Bemtvi.Lib.LexicalPaths
import Bemtvi.Lib.Percent
import Bemtvi.Lib.Utf8Bytes

namespace Bemtvi.Core

open Utf8

inductive PathStyle where
  | posix
  | windows
deriving DecidableEq, Repr

namespace PathStyle

/-- `PathStyle::sep`. -/
def sep : PathStyle → Char
  | .posix => '/'
  | .windows => '\\'

/-- `PathStyle::is_sep`. -/
def isSep : PathStyle → Char → Bool
  | .posix, c => c == '/'
  | .windows, c => c == '/' || c == '\\'

/-! ### Roots -/

/-- A text up to and with its first separator, and the rest; nothing where it has none. -/
def pastSep : Text → Option (Text × Text)
  | [] => none
  | c :: rest =>
      if isSep .windows c then some ([c], rest)
      else (pastSep rest).map fun (front, rest) => (c :: front, rest)

/-- `\\server\share\`, behind its two separators. -/
def uncRoot (rest : Text) : Option (Text × Text) := do
  let (server, rest) ← pastSep rest
  let (share, rest) ← pastSep rest
  return (server ++ share, rest)

/-- `PathStyle::split_root`. -/
def splitRoot : PathStyle → Text → Text × Text
  | .posix, '/' :: rest => (['/'], rest)
  | .posix, p => ([], p)
  | .windows, [] => ([], [])
  | .windows, c :: rest =>
      if isSep .windows c && rest.head?.any (isSep .windows) then
        match uncRoot (rest.drop 1) with
        | some (root, behind) => (c :: rest.take 1 ++ root, behind)
        | none => (c :: rest, [])
      else if c.isAlpha && rest.head? = some ':' then
        match rest.drop 1 with
        | d :: behind => if isSep .windows d then ([c, ':', d], behind) else ([c, ':'], d :: behind)
        | [] => ([c, ':'], [])
      else if isSep .windows c then ([c], rest)
      else ([], c :: rest)

/-- `PathStyle::is_absolute`. -/
def isAbsolute (style : PathStyle) (p : Text) : Bool :=
  let root := (style.splitRoot p).1
  match style with
  | .posix => !root.isEmpty
  | .windows => 3 ≤ size root || ['\\', '\\'].isPrefixOf root || ['/', '/'].isPrefixOf root

/-! ### Components -/

def components (style : PathStyle) (rest : Text) : List Text := rest.splitOnP style.isSep

/-- A turn of the loop of `normalize`. -/
def pushPart (rooted : Bool) (parts : List Text) (part : Text) : List Text :=
  if part = [] ∨ part = ['.'] then parts
  else if part = ['.', '.'] then
    match parts.getLast? with
    | some last =>
        if last ≠ ['.', '.'] then parts.dropLast
        else if rooted then parts else parts ++ [['.', '.']]
    | none => if rooted then parts else parts ++ [['.', '.']]
  else parts ++ [part]

/-- `PathStyle::normalize`. -/
def normalize (style : PathStyle) (p : Text) : Text :=
  let (root, rest) := style.splitRoot p
  let parts := (style.components rest).foldl (pushPart (!root.isEmpty)) []
  let root := match style with
    | .posix => root
    | .windows => root.map fun c => if c = '/' then '\\' else c
  let out := root ++ [style.sep].intercalate parts
  if out = [] then ['.'] else out

/-- `PathStyle::join`. -/
def join (style : PathStyle) (base p : Text) : Text :=
  if style.isAbsolute p then p
  else
    let root := (style.splitRoot p).1
    if root ≠ [] then
      if root.getLast? = some ':' then p
      else (style.splitRoot base).1.rdropWhile style.isSep ++ p
    else if base = [] then p
    else if p = [] then base
    else
      let out := base ++ (if base.getLast?.any style.isSep then [] else [style.sep]) ++ p
      if style = .windows ∧ ['\\', '\\', '?', '\\'].isPrefixOf base then style.normalize out
      else out

/-- The last component, with what stands in front of its separator, if there is one. -/
def splitLast (style : PathStyle) (rest : Text) : Option Text × Text :=
  let name := rest.reverse.takeWhile fun c => !style.isSep c
  match rest.reverse.dropWhile fun c => !style.isSep c with
  | [] => (none, rest)
  | _ :: head => (some head.reverse, name.reverse)

/-- `PathStyle::parent`. -/
def parent (style : PathStyle) (p : Text) : Option Text :=
  let (root, rest) := style.splitRoot p
  let rest := rest.rdropWhile style.isSep
  if rest = [] then none
  else
    match (style.splitLast rest).1 with
    | some head => some (root ++ head.rdropWhile style.isSep)
    | none => if root = [] then none else some root

/-- `PathStyle::file_name`. -/
def fileName (style : PathStyle) (p : Text) : Option Text :=
  let rest := (style.splitRoot p).2.rdropWhile style.isSep
  let name := (style.splitLast rest).2
  if name ≠ [] ∧ name ≠ ['.'] ∧ name ≠ ['.', '.'] then some name else none

/-! ### URIs -/

/-- The bytes that `percent_encode_into` keeps. -/
def keeps (b : UInt8) : Bool :=
  let c := charOf b
  b < 128 && (c.isAlphanum || ['-', '.', '_', '~', '!', '$', '&', '\'', '(', ')', '*', '+', ',',
    ';', '=', ':', '@'].contains c)

/-- `percent_encode_into`. -/
def percentEncode (segment : Text) : Text := (Percent.encode keeps (bytes segment)).map charOf

/-- `String::from_utf8`. -/
def fromUtf8 (b : List UInt8) : Option Text := b.toByteArray.utf8Decode?.map Array.toList

/-- `percent_decode`. -/
def percentDecode (s : Text) : Option Text := fromUtf8 (Percent.decode (bytes s))

def slashed (s : Text) : Text := s.map fun c => if c = '\\' then '/' else c

def backslashed (s : Text) : Text := s.map fun c => if c = '/' then '\\' else c

/-- The host and the path of an absolute path's URI. -/
def uriParts (style : PathStyle) (p : Text) : Text × Text :=
  match style with
  | .posix => ([], p)
  | .windows =>
      let (root, rest) := style.splitRoot p
      if ['\\', '\\'].isPrefixOf root || ['/', '/'].isPrefixOf root then
        let inner := ((root.drop 2).splitOnP style.isSep).filter (· ≠ [])
        (inner.headD [], '/' :: inner.getD 1 [] ++ '/' :: slashed rest)
      else ([], '/' :: root.take 2 ++ '/' :: slashed rest)

/-- `PathStyle::to_file_uri`. -/
def toFileUri (style : PathStyle) (p : Text) : Option Text :=
  if !style.isAbsolute p then none
  else
    let (host, path) := style.uriParts p
    some ("file://".toList ++ host ++
      ['/'].intercalate ((path.splitOn '/').map percentEncode))

def localhost : Text := ['l', 'o', 'c', 'a', 'l', 'h', 'o', 's', 't']

/-- `PathStyle::from_file_uri`. -/
def fromFileUri (style : PathStyle) (uri : Text) : Option Text :=
  if !"file://".toList.isPrefixOf uri then none
  else
    let rest := uri.drop 7
    let host := rest.takeWhile (· ≠ '/')
    let path := if rest.contains '/' then rest.dropWhile (· ≠ '/') else ['/']
    match percentDecode (path.takeWhile fun c => c ≠ '?' ∧ c ≠ '#') with
    | none => none
    | some path =>
        match style with
        | .posix => if host ≠ [] ∧ host ≠ localhost then none else some path
        | .windows =>
            if host ≠ [] ∧ host ≠ localhost then
              some (['\\', '\\'] ++ host ++ backslashed path)
            else
              match path with
              | '/' :: drive :: mark :: rest =>
                  if drive.isAlpha ∧ (mark = ':' ∨ mark = '|') then
                    some (drive :: ':' ::
                      (if rest = [] then ['\\'] else backslashed rest))
                  else none
              | _ => none

end PathStyle

end Bemtvi.Core
