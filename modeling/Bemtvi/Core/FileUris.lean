/-
Module: Bemtvi.Core.FileUris
Purpose: A `file` URI is read back as the path it was made from, separators spelled anew.
Trusted boundary: none
Main exports: file_uri_returns
-/
import Bemtvi.Core.PathStyle

namespace Bemtvi.Core.PathStyle

open Utf8

/-! ### What a path's URI is made of -/

/-- The bytes a path keeps, its separators among them. -/
def keepsPath (b : UInt8) : Bool := keeps b || b == 47

/-- A path in a URI. -/
def written (p : Text) : Text := (Percent.encode keepsPath (bytes p)).map charOf

theorem toNat_charOf (b : UInt8) : (charOf b).toNat = b.toNat := by
  have below := b.toNat_lt
  rw [charOf, Char.toNat_ofNat, if_pos (.inl (by omega))]

variable {b : UInt8} {p host name server share : Text} {c t s u : Char} {style : PathStyle}

theorem charOf_eq {code : UInt8} (same : charOf b = charOf code) : b = code := by
  rw [← UInt8.toNat_inj, ← toNat_charOf, same, toNat_charOf]

theorem bytes_charsOf {codes : List UInt8} (ascii : ∀ b ∈ codes, b.toNat < 128) :
    bytes (codes.map charOf) = codes := by
  induction codes with
  | nil => rfl
  | cons b codes ih =>
      have small := ascii b List.mem_cons_self
      rw [List.map_cons, bytes_cons, ih fun b among => ascii b (List.mem_cons_of_mem _ among),
        encode_ascii (by rwa [toNat_charOf]), toNat_charOf, UInt8.ofNat_toNat]
      rfl

/-- A byte of a URI's path: ASCII, and no start of a query or a fragment. -/
structure Plain (b : UInt8) : Prop where
  ascii : b.toNat < 128
  query : b ≠ 63
  fragment : b ≠ 35

theorem keeps_plain (kept : keepsPath b = true) : Plain b := by
  refine ⟨?_, ?_, ?_⟩
  · rcases Bool.or_eq_true_iff.1 kept with kept | slash
    · exact of_decide_eq_true (Bool.and_eq_true_iff.1 kept).1
    · rw [beq_iff_eq.1 slash]
      decide
  · rintro rfl
    exact absurd kept (by decide)
  · rintro rfl
    exact absurd kept (by decide)

theorem digit_plain {n : Nat} (small : n < 16) : Plain (Percent.digit n) := by
  constructor <;> interval_cases n <;> decide

theorem codes_plain (among : b ∈ Percent.encode keepsPath (bytes p)) : Plain b := by
  rcases Percent.mem_encode among with kept | rfl | ⟨n, small, rfl⟩
  · exact keeps_plain kept
  · exact ⟨by decide, by decide, by decide⟩
  · exact digit_plain small

theorem percentDecode_written (p : Text) : percentDecode (written p) = some p := by
  have read : bytes (written p) = Percent.encode keepsPath (bytes p) :=
    bytes_charsOf fun _ among => (codes_plain among).ascii
  have decoded : (bytes p).toByteArray.utf8Decode? = some p.toArray := List.utf8Decode?_utf8Encode
  rw [percentDecode, read, Percent.decode_encode rfl, fromUtf8, decoded]
  rfl

theorem written_plain (among : c ∈ written p) : c ≠ '?' ∧ c ≠ '#' := by
  obtain ⟨b, code, rfl⟩ := List.mem_map.1 among
  have plain := codes_plain code
  exact ⟨fun same => plain.query (charOf_eq same), fun same => plain.fragment (charOf_eq same)⟩

theorem written_slash (p : Text) : written ('/' :: p) = '/' :: written p := rfl

/-- No byte of another character is a slash. -/
theorem keepsPath_eq (other : c ≠ '/') (among : b ∈ String.utf8EncodeChar c) :
    keepsPath b = keeps b := by
  have ne : b ≠ 47 := by
    rintro rfl
    obtain ⟨pre, post, found⟩ := List.append_of_mem among
    have found : bytes [c] = pre ++ 47 :: post := by
      rw [bytes_cons, bytes_nil, List.append_nil, found]
    obtain ⟨front, c', back, same, -, lead, -⟩ := exists_of_ascii_byte (by decide) found
    have slash : c' = '/' := (leadByte_eq_iff (by decide)).1 lead
    have member : c' ∈ [c] := same ▸ List.mem_append_right _ List.mem_cons_self
    exact other (List.mem_singleton.1 member ▸ slash)
  rw [keepsPath, beq_eq_false_iff_ne.2 ne, Bool.or_false]

theorem percentEncode_cons (c : Char) (segment : Text) :
    percentEncode (c :: segment) =
      (Percent.encode keeps (String.utf8EncodeChar c)).map charOf ++ percentEncode segment := by
  simp only [percentEncode, Percent.encode, bytes_cons, List.flatMap_append, List.map_append]

theorem written_cons (c : Char) (p : Text) :
    written (c :: p) =
      (Percent.encode keepsPath (String.utf8EncodeChar c)).map charOf ++ written p := by
  simp only [written, Percent.encode, bytes_cons, List.flatMap_append, List.map_append]

/-- Segment by segment is all at once. -/
theorem segments_written (p : Text) :
    ['/'].intercalate ((p.splitOn '/').map percentEncode) = written p := by
  induction p with
  | nil => rfl
  | cons c p ih =>
      rw [List.splitOn_cons_eq_if_modifyHead]
      obtain ⟨segment, more, split⟩ := List.exists_cons_of_ne_nil (List.splitOn_ne_nil '/' p)
      split
      · next slash =>
          rw [beq_iff_eq.1 slash, written_slash, ← ih, List.map_cons,
            List.intercalate_cons_of_ne_nil (by simp [List.splitOn_ne_nil])]
          rfl
      · next other =>
          have plain : (Percent.encode keeps (String.utf8EncodeChar c)) =
              Percent.encode keepsPath (String.utf8EncodeChar c) :=
            Percent.encode_congr fun b among =>
              (keepsPath_eq (by simpa using other) among).symm
          rw [written_cons, ← plain, ← ih, split, List.modifyHead_cons, List.map_cons,
            List.map_cons, percentEncode_cons]
          cases more with
          | nil => simp only [List.map_nil, List.intercalate_singleton]
          | cons segment' more =>
              simp only [List.map_cons, List.intercalate_cons_cons, List.append_assoc]

/-! ### Back from a URI -/

/-- The path a URI's host and path name. -/
def named (style : PathStyle) (host path : Text) : Option Text :=
  match style with
  | .posix => if host ≠ [] ∧ host ≠ localhost then none else some path
  | .windows =>
      if host ≠ [] ∧ host ≠ localhost then some (['\\', '\\'] ++ host ++ backslashed path)
      else
        match path with
        | '/' :: drive :: mark :: rest =>
            if drive.isAlpha ∧ (mark = ':' ∨ mark = '|') then
              some (drive :: ':' :: (if rest = [] then ['\\'] else backslashed rest))
            else none
        | _ => none

theorem fromFileUri_written (p : Text) (whole : '/' ∉ host) :
    style.fromFileUri ("file://".toList ++ host ++ written ('/' :: p)) =
      style.named host ('/' :: p) := by
  have front : (host ++ written ('/' :: p)).takeWhile (· ≠ '/') = host := by
    rw [written_slash, List.takeWhile_append_of_pos fun c among => ?_]
    · simp
    · exact decide_eq_true fun slash => whole (slash ▸ among)
  have behind : (host ++ written ('/' :: p)).dropWhile (· ≠ '/') = written ('/' :: p) := by
    rw [written_slash, List.dropWhile_append_of_pos fun c among => ?_]
    · simp
    · exact decide_eq_true fun slash => whole (slash ▸ among)
  have slashes : (host ++ written ('/' :: p)).contains '/' = true := by
    simp [written_slash]
  have uncut : (written ('/' :: p)).takeWhile (fun c => c ≠ '?' ∧ c ≠ '#') = written ('/' :: p) :=
    List.takeWhile_eq_self_iff.2 fun c among => decide_eq_true (written_plain among)
  have scheme :
      "file://".toList.isPrefixOf ("file://".toList ++ host ++ written ('/' :: p)) = true := by
    rw [List.append_assoc]
    exact List.isPrefixOf_iff_prefix.2 (List.prefix_append ..)
  have rest :
      ("file://".toList ++ host ++ written ('/' :: p)).drop 7 = host ++ written ('/' :: p) := by
    rw [List.append_assoc]
    rfl
  rw [fromFileUri, scheme, rest]
  simp only [front, behind, slashes, uncut, percentDecode_written, Bool.not_true,
    Bool.false_eq_true, if_false, if_true]
  cases style <;> rfl

/-! ### There and back -/

/-- An absolute path with all its parts: a drive, or a server and a share that are closed, behind two
separators spelled alike. -/
inductive Full : PathStyle → Text → Prop
  | posix (rest : Text) : Full .posix ('/' :: rest)
  | drive (d s : Char) (rest : Text) (letter : d.isAlpha = true) (sep : isSep .windows s = true) :
      Full .windows (d :: ':' :: s :: rest)
  | unc (s t u : Char) (server share rest : Text) (seps : ∀ c ∈ [s, t, u], isSep .windows c = true)
      (server_whole : ∀ c ∈ server, isSep .windows c = false) (server_some : server ≠ [])
      (share_whole : ∀ c ∈ share, isSep .windows c = false) (share_some : share ≠ [])
      (remote : server ≠ localhost) :
      Full .windows (s :: s :: (server ++ t :: (share ++ u :: rest)))

/-- A path with its separators spelled anew. -/
def respelled : PathStyle → Text → Text
  | .posix, p => p
  | .windows, p => backslashed p

theorem isSep_windows : isSep .windows c = true ↔ c = '/' ∨ c = '\\' := by
  rw [isSep, Bool.or_eq_true_iff, beq_iff_eq, beq_iff_eq]

theorem backslashed_sep (sep : isSep .windows c = true) (rest : Text) :
    backslashed (c :: rest) = '\\' :: backslashed rest := by
  rcases isSep_windows.1 sep with rfl | rfl <;> rfl

theorem backslashed_append (front rest : Text) :
    backslashed (front ++ rest) = backslashed front ++ backslashed rest := List.map_append

theorem backslashed_whole (whole : ∀ c ∈ name, isSep .windows c = false) :
    backslashed name = name := by
  rw [backslashed, List.map_congr_left (g := id), List.map_id]
  intro c among
  rw [if_neg, id]
  rintro rfl
  exact absurd (whole '/' among) (by decide)

theorem backslashed_slashed (rest : Text) : backslashed (slashed rest) = backslashed rest := by
  rw [backslashed, slashed, List.map_map]
  refine List.map_congr_left fun c _ => ?_
  simp only [Function.comp_apply]
  split
  · next back => rw [back]; decide
  · rfl

theorem pastSep_whole (whole : ∀ c ∈ name, isSep .windows c = false)
    (sep : isSep .windows t = true) (rest : Text) :
    pastSep (name ++ t :: rest) = some (name ++ [t], rest) := by
  induction name with
  | nil => simp only [List.nil_append, pastSep, sep, if_true]
  | cons c name ih =>
      rw [List.cons_append, pastSep, if_neg (by simp [whole c List.mem_cons_self]),
        ih fun c among => whole c (List.mem_cons_of_mem _ among)]
      rfl

theorem splitRoot_unc (rest : Text) (seps : ∀ c ∈ [s, t, u], isSep .windows c = true)
    (server_whole : ∀ c ∈ server, isSep .windows c = false)
    (share_whole : ∀ c ∈ share, isSep .windows c = false) :
    splitRoot .windows (s :: s :: (server ++ t :: (share ++ u :: rest))) =
      (s :: s :: (server ++ [t] ++ (share ++ [u])), rest) := by
  have root : uncRoot (server ++ t :: (share ++ u :: rest)) =
      some (server ++ [t] ++ (share ++ [u]), rest) := by
    rw [uncRoot, pastSep_whole server_whole (seps t (by simp)), Option.bind_eq_bind,
      Option.bind_some]
    simp only [pastSep_whole share_whole (seps u (by simp))]
    rfl
  have sep := seps s List.mem_cons_self
  simp only [splitRoot, sep, List.head?_cons, Option.any_some, Bool.and_self, if_true,
    List.drop_succ_cons, List.drop_zero, root]
  rfl

theorem toFileUri_eq {path : Text} (absolute : style.isAbsolute p = true)
    (parts : style.uriParts p = (host, path)) :
    style.toFileUri p = some ("file://".toList ++ host ++ written path) := by
  rw [toFileUri, absolute, parts, ← segments_written]
  rfl

theorem pieces_unc (t_sep : isSep .windows t = true) (u_sep : isSep .windows u = true)
    (server_whole : ∀ c ∈ server, isSep .windows c = false) (server_some : server ≠ [])
    (share_whole : ∀ c ∈ share, isSep .windows c = false) (share_some : share ≠ []) :
    ((server ++ [t] ++ (share ++ [u])).splitOnP (isSep .windows)).filter (· ≠ []) =
      [server, share] := by
  rw [List.append_assoc, List.singleton_append,
    List.splitOnP_append_cons_of_forall_mem server_whole t t_sep,
    List.splitOnP_append_cons_of_forall_mem share_whole u u_sep]
  simp [server_some, share_some]

theorem isAbsolute_unc (rest : Text) (seps : ∀ c ∈ [s, t, u], isSep .windows c = true)
    (server_whole : ∀ c ∈ server, isSep .windows c = false)
    (share_whole : ∀ c ∈ share, isSep .windows c = false) :
    isAbsolute .windows (s :: s :: (server ++ t :: (share ++ u :: rest))) = true := by
  rw [isAbsolute, splitRoot_unc rest seps server_whole share_whole]
  rcases isSep_windows.1 (seps s List.mem_cons_self) with rfl | rfl <;> simp

theorem uriParts_unc (rest : Text) (seps : ∀ c ∈ [s, t, u], isSep .windows c = true)
    (server_whole : ∀ c ∈ server, isSep .windows c = false) (server_some : server ≠ [])
    (share_whole : ∀ c ∈ share, isSep .windows c = false) (share_some : share ≠ []) :
    uriParts .windows (s :: s :: (server ++ t :: (share ++ u :: rest))) =
      (server, '/' :: share ++ '/' :: slashed rest) := by
  have pieces := pieces_unc (seps t (by simp)) (seps u (by simp)) server_whole server_some
    share_whole share_some
  rw [uriParts, splitRoot_unc rest seps server_whole share_whole]
  simp only [List.drop_succ_cons, List.drop_zero, pieces]
  rcases isSep_windows.1 (seps s List.mem_cons_self) with rfl | rfl <;> simp

theorem named_unc (some : host ≠ []) (remote : host ≠ localhost) (path : Text) :
    named .windows host path = .some (['\\', '\\'] ++ host ++ backslashed path) :=
  if_pos ⟨some, remote⟩

theorem named_drive {d : Char} (letter : d.isAlpha = true) (c : Char) (rest : Text) :
    named .windows [] ('/' :: d :: ':' :: c :: rest) =
      some (d :: ':' :: backslashed (c :: rest)) := by
  simp [named, letter]

theorem not_slash (whole : ∀ c ∈ name, isSep .windows c = false) : '/' ∉ name :=
  fun among => absurd (whole '/' among) (by decide)

/-- **The path a URI names is the path it was made from**: `from_file_uri` takes `to_file_uri`
back, for every absolute path with all its parts. -/
theorem file_uri_returns {style : PathStyle} {p : Text} (full : Full style p) :
    ∃ uri, style.toFileUri p = some uri ∧ style.fromFileUri uri = some (respelled style p) := by
  cases full with
  | posix rest =>
      have parts : uriParts .posix ('/' :: rest) = ([], '/' :: rest) := rfl
      refine ⟨_, toFileUri_eq rfl parts, ?_⟩
      rw [fromFileUri_written rest List.not_mem_nil]
      rfl
  | drive d s rest letter sep =>
      have away : d ≠ '\\' ∧ d ≠ '/' := by
        constructor
        · rintro rfl
          exact absurd letter (by decide)
        · rintro rfl
          exact absurd letter (by decide)
      have root : splitRoot .windows (d :: ':' :: s :: rest) = ([d, ':', s], rest) := by
        have plain : isSep .windows d = false := by
          rw [Bool.eq_false_iff]
          intro back
          exact (isSep_windows.1 back).elim away.2 away.1
        simp only [splitRoot, plain, letter, sep, List.head?_cons, Bool.false_and, if_true,
          List.drop_succ_cons, List.drop_zero, Bool.false_eq_true, if_false, Bool.and_self,
          decide_true]
      have parts : uriParts .windows (d :: ':' :: s :: rest) =
          ([], '/' :: ([d, ':'] ++ '/' :: slashed rest)) := by
        rw [uriParts, root]
        simp [away.1.symm, away.2.symm]
      have absolute : isAbsolute .windows (d :: ':' :: s :: rest) = true := by
        have first := d.utf8Size_pos
        have second := Char.utf8Size_pos ':'
        have third := s.utf8Size_pos
        have wide : 3 ≤ size [d, ':', s] := by
          simp only [size_cons, size_nil]
          omega
        rw [isAbsolute, root]
        simp only [wide, decide_true, Bool.true_or]
      refine ⟨_, toFileUri_eq absolute parts, ?_⟩
      rw [fromFileUri_written _ List.not_mem_nil, List.cons_append, List.cons_append,
        List.nil_append, named_drive letter, backslashed_sep rfl, backslashed_slashed, respelled]
      have mark : backslashed (d :: ':' :: s :: rest) = d :: ':' :: '\\' :: backslashed rest := by
        rw [backslashed, List.map_cons, List.map_cons, ← backslashed, backslashed_sep sep,
          if_neg away.2, if_neg (by decide)]
      rw [mark]
  | unc s t u server share rest seps server_whole server_some share_whole share_some remote =>
      refine ⟨_, toFileUri_eq (isAbsolute_unc rest seps server_whole share_whole)
        (uriParts_unc rest seps server_whole server_some share_whole share_some), ?_⟩
      have s_sep := seps s List.mem_cons_self
      rw [List.cons_append, fromFileUri_written _ (not_slash server_whole),
        named_unc server_some remote, respelled]
      simp only [backslashed_sep s_sep, backslashed_sep (seps t (by simp)),
        backslashed_sep (seps u (by simp)), backslashed_append, backslashed_slashed,
        backslashed_whole server_whole, backslashed_whole share_whole,
        backslashed_sep (c := '/') rfl]
      simp

/-- `\\s\p\ /a`: the blank is coded, and every separator is read back as a backslash. -/
theorem file_uri_returns_share :
    ∃ uri, toFileUri .windows ['\\', '\\', 's', '\\', 'p', '/', ' ', '/', 'a'] = some uri ∧
      fromFileUri .windows uri = some ['\\', '\\', 's', '\\', 'p', '\\', ' ', '\\', 'a'] :=
  file_uri_returns (.unc '\\' '\\' '/' ['s'] ['p'] [' ', '/', 'a'] (by simp [isSep])
    (by simp [isSep]) (by simp) (by simp [isSep]) (by simp) (by simp [localhost]))

end Bemtvi.Core.PathStyle
