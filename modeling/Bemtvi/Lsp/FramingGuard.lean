/-
Module: Bemtvi.Lsp.FramingGuard
Purpose: The guard between a language server's output and the client's own header parser: a machine over
  the bytes that bounds header lines and announced bodies.
Trusted boundary: human-reviewed model of bemtvi-lsp/src/manager.rs:680-983; an error keeps how many
  bytes of the read are behind it, and `AsyncReads` is the third-party reader as documented
Main exports: FramingGuard, scanHeaderByte, scanReads, run, AsyncReads
-/
import Mathlib

namespace Bemtvi.Lsp.Guard

/-! ### Header lines -/

/-- `MAX_FRAME_LEN`. -/
def maxFrameLen : Nat := 256 * 1024 * 1024

/-- `MAX_HEADER_LEN`. -/
def maxHeaderLen : Nat := 64 * 1024

def cr : UInt8 := 13
def lf : UInt8 := 10
def colon : UInt8 := 58
def space : UInt8 := 32
def plus : UInt8 := 43

/-- `CONTENT_LENGTH_NAME`. -/
def contentLengthName : List UInt8 :=
  [99, 111, 110, 116, 101, 110, 116, 45, 108, 101, 110, 103, 116, 104]

/-- `u8::to_ascii_lowercase`. -/
def asciiLower (b : UInt8) : UInt8 := if 65 ≤ b ∧ b ≤ 90 then b + 32 else b

/-- `eq_ignore_ascii_case`. -/
def eqIgnoreCase (b b' : UInt8) : Bool := asciiLower b == asciiLower b'

/-- `u8::is_ascii_digit`. -/
def isDigit (b : UInt8) : Bool := 48 ≤ b && b ≤ 57

def digit (b : UInt8) : Nat := b.toNat - 48

/-- What a stream fails with. -/
inductive Fault where
  | headerLine
  | frameLength
  | noContentLength
deriving Repr, DecidableEq

/-- `ValuePhase`. -/
inductive ValuePhase where
  | expectColon
  | skipSpaces
  | expectDigits
  | digits
  | dead
deriving Repr, DecidableEq

/-- `HeaderScan`. -/
structure HeaderScan where
  /-- Bytes of the name matched so far; `none` behind a mismatch. -/
  name : Option Nat
  value : ValuePhase
  valueSoFar : Nat
  lineLen : Nat
  pendingCr : Bool
deriving Repr, DecidableEq

namespace HeaderScan

/-- `HeaderScan::new`. -/
def new : HeaderScan := ⟨some 0, .dead, 0, 0, false⟩

/-- `saturating_mul(10).saturating_add(..)` of a `u64`. -/
def moreDigits (value : Nat) (b : UInt8) : Nat :=
  min (min (value * 10) (2 ^ 64 - 1) + digit b) (2 ^ 64 - 1)

/-- A byte of the value. -/
def scanValue (s : HeaderScan) (b : UInt8) : Except Fault HeaderScan :=
  match s.value with
  | .expectColon => .ok { s with value := if b = colon then .skipSpaces else .dead }
  | .skipSpaces =>
      if b = space then .ok s
      else if b = plus then .ok { s with value := .expectDigits }
      else if isDigit b then .ok { s with value := .digits, valueSoFar := digit b }
      else .ok { s with value := .dead }
  | .expectDigits =>
      if isDigit b then .ok { s with value := .digits, valueSoFar := digit b }
      else .ok { s with value := .dead }
  | .digits =>
      if isDigit b then
        if moreDigits s.valueSoFar b > maxFrameLen then .error .frameLength
        else .ok { s with valueSoFar := moreDigits s.valueSoFar b }
      else .ok { s with value := .dead }
  | .dead => .ok s

/-- A byte of the name. -/
def scanName (s : HeaderScan) (matched : Nat) (b : UInt8) : HeaderScan :=
  if (contentLengthName[matched]?).any (eqIgnoreCase b) then
    { s with
      name := some (matched + 1)
      value := if matched + 1 = contentLengthName.length then .expectColon else s.value }
  else { s with name := none, value := .dead }

/-- `scan_byte`. -/
def scanByte (s : HeaderScan) (b : UInt8) : Except Fault HeaderScan :=
  let s := { s with lineLen := s.lineLen + 1 }
  if s.lineLen > maxHeaderLen then .error .headerLine
  else
    match s.name with
    | some matched => if matched < contentLengthName.length then .ok (s.scanName matched b)
        else s.scanValue b
    | none => s.scanValue b

/-- `HeaderScan::announced`. -/
def announced (s : HeaderScan) : Option Nat := if s.value = .digits then some s.valueSoFar else none

end HeaderScan

/-! ### The guard -/

/-- `Phase`. -/
inductive Phase where
  | headers
  | body
deriving Repr, DecidableEq

/-- `FramingGuard`, without the reader inside. -/
structure FramingGuard where
  phase : Phase
  scan : HeaderScan
  announced : Option Nat
  bodyRemaining : Nat
deriving Repr, DecidableEq

/-- What a header byte leaves: the scan, what is announced, and the body's length at the end of the
section. -/
structure HeaderStep where
  scan : HeaderScan
  announced : Option Nat
  ended : Option Nat
deriving Repr, DecidableEq

/-- `scan_header_byte`. -/
def scanHeaderByte (scan : HeaderScan) (announced : Option Nat) (b : UInt8) :
    Except Fault HeaderStep :=
  if b = cr then .ok ⟨{ scan with pendingCr := true }, announced, none⟩
  else if b = lf then
    if scan.lineLen = 0 then
      match announced with
      | some length => .ok ⟨scan, announced, some length⟩
      | none => .error .noContentLength
    else
      .ok ⟨.new, if scan.pendingCr then scan.announced.or announced else announced, none⟩
  else
    (if scan.pendingCr then
      (scan.scanByte cr).map fun scan => { scan with pendingCr := false }
    else .ok scan).bind fun scan =>
      (scan.scanByte b).map fun scan => ⟨scan, announced, none⟩

namespace FramingGuard

/-- `FramingGuard::new`. -/
def new : FramingGuard := ⟨.headers, .new, none, 0⟩

/-- `FramingGuard::scan`; an error comes with the bytes of the chunk that are left behind it. -/
def scanChunk (g : FramingGuard) (chunk : List UInt8) : Except (Fault × Nat) FramingGuard :=
  match chunk with
  | [] => .ok g
  | b :: rest =>
      if g.phase = .body then
        let skip := min g.bodyRemaining (b :: rest).length
        if g.bodyRemaining - skip > 0 then .ok { g with bodyRemaining := g.bodyRemaining - skip }
        else new.scanChunk ((b :: rest).drop skip)
      else
        match scanHeaderByte g.scan g.announced b with
        | .error fault => .error (fault, rest.length)
        | .ok step =>
            match step.ended with
            | some remaining => scanChunk ⟨.body, .new, none, remaining⟩ rest
            | none => scanChunk { g with scan := step.scan, announced := step.announced } rest
termination_by (chunk.length, if g.phase = .body then 1 else 0)
decreasing_by
  · rename_i inBody _
    rw [if_pos inBody]
    rcases Nat.eq_zero_or_pos (min g.bodyRemaining (b :: rest).length) with none_skipped | skipped
    · simp only [none_skipped, List.drop_zero]
      exact Prod.Lex.right _ (by simp [new])
    · refine Prod.Lex.left _ _ ?_
      rw [List.length_drop]
      exact Nat.sub_lt (Nat.succ_pos _) skipped
  · exact Prod.Lex.left _ _ (Nat.lt_succ_self _)
  · exact Prod.Lex.left _ _ (Nat.lt_succ_self _)

/-- What successive reads give: a guard, or the fault and the byte of the stream it is at. -/
def scanReads (g : FramingGuard) (pos : Nat) : List (List UInt8) → Except (Fault × Nat) FramingGuard
  | [] => .ok g
  | chunk :: chunks =>
      match g.scanChunk chunk with
      | .error (fault, left) => .error (fault, pos + (chunk.length - 1 - left))
      | .ok g' => g'.scanReads (pos + chunk.length) chunks

/-! ### Byte by byte -/

/-- One byte. -/
def feed (g : FramingGuard) (b : UInt8) : Except Fault FramingGuard :=
  if g.phase = .body ∧ 0 < g.bodyRemaining then
    .ok (if g.bodyRemaining = 1 then new else { g with bodyRemaining := g.bodyRemaining - 1 })
  else
    let g := if g.phase = .body then new else g
    (scanHeaderByte g.scan g.announced b).map fun step =>
      match step.ended with
      | some remaining => ⟨.body, .new, none, remaining⟩
      | none => { g with scan := step.scan, announced := step.announced }

/-- The bytes of a stream, one by one. -/
def run (g : FramingGuard) (pos : Nat) : List UInt8 → Except (Fault × Nat) FramingGuard
  | [] => .ok g
  | b :: bytes =>
      match g.feed b with
      | .error fault => .error (fault, pos)
      | .ok g' => g'.run (pos + 1) bytes

theorem run_append (g : FramingGuard) (pos : Nat) (front back : List UInt8) :
    g.run pos (front ++ back) =
      (g.run pos front).bind fun g' => g'.run (pos + front.length) back := by
  induction front generalizing g pos with
  | nil => rfl
  | cons b front ih =>
      rw [List.cons_append, run, run]
      cases g.feed b with
      | error fault => rfl
      | ok g' =>
          simp only [ih, List.length_cons]
          rw [Nat.add_assoc, Nat.add_comm 1]

end FramingGuard

/-! ### The client's reader -/

/-- The first `: ` of a line, and what stands about it. -/
def splitOnce : List UInt8 → Option (List UInt8 × List UInt8)
  | b :: b' :: rest =>
      if b = colon ∧ b' = space then some ([], rest)
      else (splitOnce (b' :: rest)).map fun (name, value) => (b :: name, value)
  | _ => none

/-- Whether a header is the length's. -/
def isContentLength (name : List UInt8) : Bool :=
  name.map asciiLower == contentLengthName.map asciiLower

def decimal (digits : List UInt8) : Nat := digits.foldl (fun n b => n * 10 + digit b) 0

/-- `usize::from_str`. -/
def parseUsize (text : List UInt8) : Option Nat :=
  let digits := if text.head? = some plus then text.tail else text
  if digits ≠ [] ∧ digits.all isDigit ∧ decimal digits < 2 ^ 64 then some (decimal digits) else none

/-- The lines of a header section, each up to its line feed; the last announcement wins. -/
def readHeader (announced : Option Nat) : List (List UInt8) → Option Nat
  | [] => none
  | line :: lines =>
      if line = [cr] then if lines = [] then announced else none
      else if line.getLast? ≠ some cr then none
      else
        match splitOnce line.dropLast with
        | none => none
        | some (name, value) =>
            if isContentLength name then
              match parseUsize value with
              | none => none
              | some n => readHeader (some n) lines
            else readHeader announced lines

/-- The bytes of lines. -/
def lineBytes (lines : List (List UInt8)) : List UInt8 := lines.flatMap (· ++ [lf])

/-- The bodies' lengths that the client's reader takes off the front of a stream. -/
inductive AsyncReads : List UInt8 → List Nat → Prop where
  | stop (stream : List UInt8) : AsyncReads stream []
  | frame {lines : List (List UInt8)} {n : Nat} {rest : List UInt8} {ns : List Nat}
      (no_feed : ∀ line ∈ lines, lf ∉ line) (header : readHeader none lines = some n)
      (more : AsyncReads (rest.drop n) ns) : AsyncReads (lineBytes lines ++ rest) (n :: ns)

end Bemtvi.Lsp.Guard
