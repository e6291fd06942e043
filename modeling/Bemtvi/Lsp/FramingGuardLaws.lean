/-
Module: Bemtvi.Lsp.FramingGuardLaws
Purpose: The framing guard over whole streams: the cuts into reads do not matter, well-formed frames
  pass, no announcement past the cap reaches the client, and which header lines stay bounded.
Trusted boundary: none
Main exports: scanReads_eq, Line, run_frames, asyncReads_le, framing_guard_reads
-/
import Bemtvi.Lsp.FramingGuard

namespace Bemtvi.Lsp.Guard

open FramingGuard HeaderScan

/-! ### Reads -/

section
variable {g g' : FramingGuard}

theorem feed_spent (inBody : g.phase = .body) (spent : g.bodyRemaining = 0) (b : UInt8) :
    g.feed b = FramingGuard.new.feed b := by
  have idle : ¬ (g.phase = .body ∧ 0 < g.bodyRemaining) := fun both => Nat.ne_of_gt both.2 spent
  have idle' : ¬ (FramingGuard.new.phase = .body ∧ 0 < FramingGuard.new.bodyRemaining) := by
    rintro ⟨⟨⟩, -⟩
  rw [feed, if_neg idle, if_pos inBody, feed, if_neg idle']
  rfl

variable {bytes : List UInt8}

theorem run_spent (inBody : g.phase = .body) (spent : g.bodyRemaining = 0)
    (some_byte : bytes ≠ []) (pos : Nat) : g.run pos bytes = FramingGuard.new.run pos bytes := by
  obtain ⟨b, bytes, rfl⟩ := List.exists_cons_of_ne_nil some_byte
  rw [run, run, feed_spent inBody spent]

/-- Bytes within a body are counted down. -/
theorem run_within (inBody : g.phase = .body) (within : bytes.length < g.bodyRemaining)
    (pos : Nat) :
    g.run pos bytes = .ok { g with bodyRemaining := g.bodyRemaining - bytes.length } := by
  induction bytes generalizing g pos with
  | nil => rfl
  | cons b bytes ih =>
      rw [List.length_cons] at within
      have left : ¬ g.bodyRemaining = 1 := by omega
      have fed : g.feed b = .ok { g with bodyRemaining := g.bodyRemaining - 1 } := by
        rw [feed, if_pos ⟨inBody, by omega⟩, if_neg left]
      have rest := ih (g := { g with bodyRemaining := g.bodyRemaining - 1 }) inBody
        (show bytes.length < g.bodyRemaining - 1 by omega) (pos + 1)
      rw [run, fed]
      simp only [rest, List.length_cons, Except.ok.injEq, FramingGuard.mk.injEq, true_and]
      omega

/-- Behind a body a header section starts. -/
theorem run_whole (inBody : g.phase = .body) (some_byte : bytes ≠ [])
    (whole : bytes.length = g.bodyRemaining) (pos : Nat) :
    g.run pos bytes = .ok FramingGuard.new := by
  induction bytes generalizing g pos with
  | nil => exact absurd rfl some_byte
  | cons b bytes ih =>
      rw [List.length_cons] at whole
      by_cases last : g.bodyRemaining = 1
      · have none_left : bytes = [] := List.eq_nil_of_length_eq_zero (by omega)
        have fed : g.feed b = .ok FramingGuard.new := by
          rw [feed, if_pos ⟨inBody, by omega⟩, if_pos last]
        rw [run, fed, none_left]
        rfl
      · have fed : g.feed b = .ok { g with bodyRemaining := g.bodyRemaining - 1 } := by
          rw [feed, if_pos ⟨inBody, by omega⟩, if_neg last]
        have some_left : bytes ≠ [] := by
          rintro rfl
          rw [List.length_nil] at whole
          omega
        rw [run, fed]
        exact ih (g := { g with bodyRemaining := g.bodyRemaining - 1 }) inBody some_left
          (show bytes.length = g.bodyRemaining - 1 by omega) (pos + 1)

theorem feed_headers (headers : g.phase ≠ .body) (b : UInt8) :
    g.feed b = (scanHeaderByte g.scan g.announced b).map fun step =>
      match step.ended with
      | some remaining => ⟨.body, .new, none, remaining⟩
      | none => { g with scan := step.scan, announced := step.announced } := by
  obtain ⟨phase, scan, announced, left⟩ := g
  cases phase with
  | headers => rfl
  | body => exact absurd rfl headers

/-- What a scan found, in terms of the run: the fault is at the byte before those left. -/
def Agrees (scanned ran : Except (Fault × Nat) FramingGuard) (pos upto : Nat) : Prop :=
  (∀ g', scanned = .ok g' → ran = .ok g') ∧
  (∀ fault left, scanned = .error (fault, left) →
    ∃ spot, ran = .error (fault, spot) ∧ pos ≤ spot ∧ spot + 1 + left = upto)

theorem Agrees.later {scanned ran : Except (Fault × Nat) FramingGuard} {pos pos' upto : Nat}
    (agrees : Agrees scanned ran pos' upto) (later : pos ≤ pos') : Agrees scanned ran pos upto := by
  refine ⟨agrees.1, fun fault left failed => ?_⟩
  obtain ⟨spot, fails, after, here⟩ := agrees.2 fault left failed
  exact ⟨spot, fails, Nat.le_trans later after, here⟩

theorem Agrees.ok (g : FramingGuard) (pos upto : Nat) : Agrees (.ok g) (.ok g) pos upto := by
  refine ⟨fun g' same => same, fun fault left failed => ?_⟩
  cases failed

/-- **The scan of a chunk is the run over its bytes.** -/
theorem scanChunk_spec (g : FramingGuard) (chunk : List UInt8) (pos : Nat) :
    Agrees (g.scanChunk chunk) (g.run pos chunk) pos (pos + chunk.length) := by
  induction g, chunk using scanChunk.induct generalizing pos with
  | case1 g =>
      rw [scanChunk]
      exact .ok g pos _
  | case2 g b rest inBody skip more =>
      simp only [skip] at more
      have within : (b :: rest).length < g.bodyRemaining := by omega
      have all : min g.bodyRemaining (b :: rest).length = (b :: rest).length :=
        Nat.min_eq_right (Nat.le_of_lt within)
      rw [all] at more
      rw [scanChunk, if_pos inBody, run_within inBody within]
      simp only [all]
      rw [if_pos more]
      exact .ok _ pos _
  | case3 g b rest inBody skip more ih =>
      simp only [skip] at more ih
      have whole : g.bodyRemaining ≤ (b :: rest).length := by omega
      rw [Nat.min_eq_left whole] at more ih
      rw [scanChunk, if_pos inBody]
      simp only [Nat.min_eq_left whole]
      rw [if_neg more]
      have again : g.run pos (b :: rest) =
          FramingGuard.new.run (pos + g.bodyRemaining) ((b :: rest).drop g.bodyRemaining) := by
        rcases Nat.eq_zero_or_pos g.bodyRemaining with spent | some_left
        · rw [spent, List.drop_zero, Nat.add_zero]
          exact run_spent inBody spent (List.cons_ne_nil b rest) pos
        · have length : ((b :: rest).take g.bodyRemaining).length = g.bodyRemaining :=
            List.length_take_of_le whole
          have some_taken : (b :: rest).take g.bodyRemaining ≠ [] := by
            intro empty
            rw [empty, List.length_nil] at length
            omega
          conv_lhs => rw [← List.take_append_drop g.bodyRemaining (b :: rest)]
          rw [run_append, run_whole inBody some_taken length, length]
          rfl
      have upto : pos + g.bodyRemaining + ((b :: rest).drop g.bodyRemaining).length =
          pos + (b :: rest).length := by
        rw [List.length_drop]
        omega
      rw [again]
      exact (upto ▸ ih (pos + g.bodyRemaining)).later (Nat.le_add_right _ _)
  | case4 g b rest headers fault failed =>
      rw [scanChunk, if_neg headers]
      simp only [failed, run, feed_headers headers, Except.map]
      refine ⟨fun g' same => ?_, fun fault' left same => ?_⟩
      · cases same
      · cases same
        refine ⟨pos, rfl, Nat.le_refl _, ?_⟩
        rw [List.length_cons]
        omega
  | case5 g b rest headers step stepped remaining ended ih =>
      rw [scanChunk, if_neg headers]
      simp only [stepped, ended, run, feed_headers headers, Except.map]
      have upto : pos + 1 + rest.length = pos + (b :: rest).length := by
        rw [List.length_cons]
        omega
      exact (upto ▸ ih (pos + 1)).later (Nat.le_succ _)
  | case6 g b rest headers step stepped ended ih =>
      rw [scanChunk, if_neg headers]
      simp only [stepped, ended, run, feed_headers headers, Except.map]
      have upto : pos + 1 + rest.length = pos + (b :: rest).length := by
        rw [List.length_cons]
        omega
      exact (upto ▸ ih (pos + 1)).later (Nat.le_succ _)

/-- **However a stream is cut into reads, the guard runs over its bytes.** -/
theorem scanReads_eq (g : FramingGuard) (pos : Nat) (chunks : List (List UInt8)) :
    g.scanReads pos chunks = g.run pos chunks.flatten := by
  induction chunks generalizing g pos with
  | nil => rfl
  | cons chunk chunks ih =>
      have agrees := scanChunk_spec g chunk pos
      rw [scanReads, List.flatten_cons, run_append]
      cases scanned : g.scanChunk chunk with
      | ok g' =>
          rw [agrees.1 g' scanned]
          exact ih g' (pos + chunk.length)
      | error found =>
          obtain ⟨fault, left⟩ := found
          obtain ⟨spot, fails, after, here⟩ := agrees.2 fault left scanned
          rw [fails]
          have same : pos + (chunk.length - 1 - left) = spot := by omega
          simp only [same]
          rfl

end

/-! ### A header line -/

/-- How many carriage returns of a line stand directly behind another. -/
def doubled : List UInt8 → Nat
  | b :: b' :: line => (if b = cr ∧ b' = cr then 1 else 0) + doubled (b' :: line)
  | _ => 0

theorem doubled_concat (line : List UInt8) (b : UInt8) :
    doubled (line ++ [b]) = doubled line + (if line.getLast? = some cr ∧ b = cr then 1 else 0) := by
  induction line with
  | nil => simp [doubled]
  | cons c line ih =>
      cases line with
      | nil => simp [doubled]
      | cons c' line =>
          have more : (c :: c' :: line) ++ [b] = c :: c' :: (line ++ [b]) := rfl
          rw [List.cons_append] at ih
          rw [more, doubled, ih, doubled, Nat.add_assoc, List.getLast?_cons_cons]

theorem asciiLower_colon : asciiLower colon ∉ contentLengthName.map asciiLower := by decide

theorem length_of_isContentLength {name : List UInt8} (length : isContentLength name = true) :
    name.length = 14 := by
  rw [isContentLength, beq_iff_eq] at length
  have same := congrArg List.length length
  rwa [List.length_map, List.length_map] at same

theorem colon_not_mem {name : List UInt8} (length : isContentLength name = true) : colon ∉ name := by
  intro member
  rw [isContentLength, beq_iff_eq] at length
  exact asciiLower_colon (length ▸ List.mem_map_of_mem member)

/-- What the scan has made of a line's bytes while the line may still announce a length. -/
inductive Held (s : HeaderScan) : List UInt8 → Prop where
  | name {core : List UInt8} (matched : s.name = some core.length) (short : core.length < 14)
      (value : s.value = .dead)
      (same : core.map asciiLower = (contentLengthName.map asciiLower).take core.length) : Held s core
  | colon {name : List UInt8} (full : s.name = some 14) (value : s.value = .expectColon)
      (length : isContentLength name = true) : Held s name
  | spaces {name : List UInt8} {n : Nat} (full : s.name = some 14) (value : s.value = .skipSpaces)
      (length : isContentLength name = true) : Held s (name ++ colon :: List.replicate n space)
  | sign {name : List UInt8} {n : Nat} (full : s.name = some 14) (value : s.value = .expectDigits)
      (length : isContentLength name = true) :
      Held s (name ++ colon :: (List.replicate n space ++ [plus]))
  | digits {name sign digits : List UInt8} {n : Nat} (full : s.name = some 14)
      (value : s.value = .digits) (length : isContentLength name = true)
      (signed : sign = [] ∨ sign = [plus]) (some_digit : digits ≠ [])
      (all : ∀ b ∈ digits, isDigit b = true) (far : s.valueSoFar = decimal digits)
      (capped : s.valueSoFar ≤ maxFrameLen) :
      Held s (name ++ colon :: (List.replicate n space ++ (sign ++ digits)))

/-- A line that announces nothing any more. -/
def Dead (s : HeaderScan) : Prop := s.value = .dead ∧ (s.name = none ∨ s.name = some 14)

theorem decimal_concat (digits : List UInt8) (b : UInt8) :
    decimal (digits ++ [b]) = decimal digits * 10 + digit b := by
  rw [decimal, List.foldl_append]
  rfl

variable {b : UInt8} {s s' : HeaderScan} {core line rest sign : List UInt8}
  {announced : Option Nat} {step : HeaderStep} {g g' : FramingGuard} {pos n : Nat}

theorem digit_le (digits : isDigit b = true) : digit b ≤ 9 := by
  simp only [isDigit, Bool.and_eq_true, decide_eq_true_eq, UInt8.le_iff_toNat_le] at digits
  have below : b.toNat ≤ 57 := digits.2
  rw [digit]
  omega

/-- A value within the cap is read exactly. -/
theorem moreDigits_eq {value : Nat} (capped : value ≤ maxFrameLen) (digits : isDigit b = true) :
    moreDigits value b = value * 10 + digit b := by
  have small := digit_le digits
  rw [maxFrameLen] at capped
  rw [moreDigits, Nat.min_eq_left, Nat.min_eq_left] <;> omega

/-- A byte scanned: what it leaves of the counts, and what it makes of the rest. -/
theorem scanByte_eq (s : HeaderScan) (b : UInt8) :
    s.scanByte b =
      if s.lineLen + 1 > maxHeaderLen then .error .headerLine
      else
        match s.name with
        | some matched =>
            if matched < contentLengthName.length then
              .ok ({ s with lineLen := s.lineLen + 1 }.scanName matched b)
            else { s with lineLen := s.lineLen + 1 }.scanValue b
        | none => { s with lineLen := s.lineLen + 1 }.scanValue b := rfl

theorem scanValue_counts (scanned : s.scanValue b = .ok s') :
    s'.lineLen = s.lineLen ∧ s'.pendingCr = s.pendingCr ∧ s'.name = s.name := by
  rw [scanValue] at scanned
  split at scanned
  · cases scanned
    exact ⟨rfl, rfl, rfl⟩
  · split at scanned
    · cases scanned
      exact ⟨rfl, rfl, rfl⟩
    · split at scanned
      · cases scanned
        exact ⟨rfl, rfl, rfl⟩
      · split at scanned
        · cases scanned
          exact ⟨rfl, rfl, rfl⟩
        · cases scanned
          exact ⟨rfl, rfl, rfl⟩
  · split at scanned
    · cases scanned
      exact ⟨rfl, rfl, rfl⟩
    · cases scanned
      exact ⟨rfl, rfl, rfl⟩
  · split at scanned
    · split at scanned
      · cases scanned
      · cases scanned
        exact ⟨rfl, rfl, rfl⟩
    · cases scanned
      exact ⟨rfl, rfl, rfl⟩
  · cases scanned
    exact ⟨rfl, rfl, rfl⟩

theorem scanName_counts (s : HeaderScan) (matched : Nat) (b : UInt8) :
    (s.scanName matched b).lineLen = s.lineLen ∧ (s.scanName matched b).pendingCr = s.pendingCr := by
  rw [scanName]
  split
  · exact ⟨rfl, rfl⟩
  · exact ⟨rfl, rfl⟩

/-- A byte is counted, within the cap. -/
theorem scanByte_counts (scanned : s.scanByte b = .ok s') :
    s'.lineLen = s.lineLen + 1 ∧ s.lineLen + 1 ≤ maxHeaderLen ∧ s'.pendingCr = s.pendingCr := by
  rw [scanByte_eq] at scanned
  split at scanned
  · cases scanned
  · next within =>
      rw [gt_iff_lt, Nat.not_lt] at within
      split at scanned
      · split at scanned
        · cases scanned
          obtain ⟨length, pending⟩ := scanName_counts { s with lineLen := s.lineLen + 1 } _ b
          exact ⟨length, within, pending⟩
        · obtain ⟨length, pending, -⟩ := scanValue_counts scanned
          exact ⟨length, within, pending⟩
      · obtain ⟨length, pending, -⟩ := scanValue_counts scanned
        exact ⟨length, within, pending⟩

theorem length_contentLengthName : contentLengthName.length = 14 := rfl

theorem Dead.scanned (dead : Dead s) (scanned : s.scanByte b = .ok s') : Dead s' := by
  obtain ⟨value, name⟩ := dead
  rw [scanByte_eq] at scanned
  split at scanned
  · cases scanned
  · rcases name with name | name
    · simp only [name, scanValue, value] at scanned
      cases scanned
      exact ⟨rfl, Or.inl rfl⟩
    · simp only [name, scanValue, value, length_contentLengthName, Nat.lt_irrefl, if_false] at scanned
      cases scanned
      exact ⟨rfl, Or.inr rfl⟩

/-- The name goes on, or the line is dead. -/
theorem Held.scanned_name (matched : s.name = some core.length) (short : core.length < 14)
    (value : s.value = .dead)
    (same : core.map asciiLower = (contentLengthName.map asciiLower).take core.length)
    (scanned : s.scanByte b = .ok s') :
    if asciiLower b = (contentLengthName.map asciiLower)[core.length]?.getD 0 then Held s' (core ++ [b])
    else Dead s' := by
  have next : (contentLengthName.map asciiLower)[core.length]? =
      contentLengthName[core.length]?.map asciiLower := List.getElem?_map ..
  obtain ⟨c, here⟩ : ∃ c, contentLengthName[core.length]? = some c :=
    ⟨_, List.getElem?_eq_getElem short⟩
  rw [scanByte_eq] at scanned
  split at scanned
  · cases scanned
  · simp only [matched, length_contentLengthName, short, if_true] at scanned
    cases scanned
    rw [next, here, Option.map_some, Option.getD_some]
    rw [scanName, here, Option.any_some, eqIgnoreCase]
    split
    · next equal =>
        have more : (core ++ [b]).map asciiLower =
            (contentLengthName.map asciiLower).take (core ++ [b]).length := by
          rw [List.length_append, List.length_singleton, List.take_add_one, next, here, ← same,
            List.map_append, Option.map_some, List.map_singleton, equal]
          rfl
        rw [if_pos (beq_iff_eq.2 equal)]
        by_cases full : core.length + 1 = 14
        · refine .colon ?_ ?_ ?_
          · simp only [full]
          · simp only [length_contentLengthName, full, if_true]
          · rw [isContentLength, beq_iff_eq, more, List.length_append, List.length_singleton, full]
            rfl
        · refine .name ?_ ?_ ?_ more
          · simp only [List.length_append, List.length_singleton]
          · rw [List.length_append, List.length_singleton]
            omega
          · simp only [length_contentLengthName, full, if_false]
            exact value
    · next other =>
        rw [if_neg fun equal => other (beq_iff_eq.1 equal)]
        exact ⟨rfl, Or.inl rfl⟩

theorem Held.scanned_value (full : s.name = some 14) (scanned : s.scanByte b = .ok s') :
    { s with lineLen := s.lineLen + 1 }.scanValue b = .ok s' := by
  rw [scanByte_eq] at scanned
  split at scanned
  · cases scanned
  · simpa only [full, length_contentLengthName, Nat.lt_irrefl, if_false] using scanned

/-- **A byte of a line that is held: the line is held with it, or dead.** -/
theorem Held.scanned (held : Held s core) (scanned : s.scanByte b = .ok s') :
    Held s' (core ++ [b]) ∨ Dead s' := by
  cases held with
  | name matched short value same =>
      have next := Held.scanned_name matched short value same scanned
      split at next
      · exact Or.inl next
      · exact Or.inr next
  | colon full value length =>
      have scanned := Held.scanned_value full scanned
      simp only [scanValue, value] at scanned
      cases scanned
      by_cases here : b = Guard.colon
      · refine Or.inl ?_
        rw [here]
        exact .spaces (n := 0) full (by simp only [if_true]) length
      · exact Or.inr ⟨if_neg here, Or.inr full⟩
  | @spaces name n full value length =>
      have scanned := Held.scanned_value full scanned
      simp only [scanValue, value] at scanned
      split at scanned
      · next here =>
          cases scanned
          refine Or.inl ?_
          rw [here, List.append_assoc, List.cons_append, ← List.replicate_succ']
          exact .spaces full rfl length
      · split at scanned
        · next here =>
            cases scanned
            refine Or.inl ?_
            rw [here, List.append_assoc, List.cons_append]
            exact .sign full rfl length
        · split at scanned
          · next here =>
              cases scanned
              refine Or.inl ?_
              have small := digit_le here
              have digits : Held { s with lineLen := s.lineLen + 1, value := .digits, valueSoFar := digit b }
                  (name ++ Guard.colon :: (List.replicate n space ++ ([] ++ [b]))) := by
                refine .digits full rfl length (Or.inl rfl) (List.cons_ne_nil b []) ?_ ?_ ?_
                · intro b' member
                  rwa [List.mem_singleton.1 member]
                · simp only [decimal, List.foldl_cons, List.foldl_nil, Nat.zero_mul, Nat.zero_add]
                · simp only [maxFrameLen]
                  omega
              rw [List.append_assoc, List.cons_append]
              exact digits
          · cases scanned
            exact Or.inr ⟨rfl, Or.inr full⟩
  | @sign name n full value length =>
      have scanned := Held.scanned_value full scanned
      simp only [scanValue, value] at scanned
      split at scanned
      · next here =>
          cases scanned
          refine Or.inl ?_
          have small := digit_le here
          have digits : Held { s with lineLen := s.lineLen + 1, value := .digits, valueSoFar := digit b }
              (name ++ Guard.colon :: (List.replicate n space ++ ([plus] ++ [b]))) := by
            refine .digits full rfl length (Or.inr rfl) (List.cons_ne_nil b []) ?_ ?_ ?_
            · intro b' member
              rwa [List.mem_singleton.1 member]
            · simp only [decimal, List.foldl_cons, List.foldl_nil, Nat.zero_mul, Nat.zero_add]
            · simp only [maxFrameLen]
              omega
          rw [List.append_assoc, List.cons_append, List.append_assoc]
          exact digits
      · cases scanned
        exact Or.inr ⟨rfl, Or.inr full⟩
  | @digits name sign digits n full value length signed some_digit all far capped =>
      have scanned := Held.scanned_value full scanned
      simp only [scanValue, value] at scanned
      split at scanned
      · next here =>
          split at scanned
          · cases scanned
          · next within =>
              cases scanned
              refine Or.inl ?_
              rw [gt_iff_lt, Nat.not_lt] at within
              have far' : moreDigits s.valueSoFar b = decimal (digits ++ [b]) := by
                rw [moreDigits_eq capped here, decimal_concat, far]
              have more : Held { s with
                    lineLen := s.lineLen + 1, value := .digits, valueSoFar := moreDigits s.valueSoFar b }
                  (name ++ Guard.colon :: (List.replicate n space ++ (sign ++ (digits ++ [b])))) := by
                refine .digits full rfl length signed (List.append_ne_nil_of_left_ne_nil some_digit _) ?_
                  far' within
                intro b' member
                rcases List.mem_append.1 member with before | last
                · exact all b' before
                · rwa [List.mem_singleton.1 last]
              simpa only [List.append_assoc, List.cons_append] using more
      · cases scanned
        exact Or.inr ⟨rfl, Or.inr full⟩

/-- A carriage return within a line kills it. -/
theorem Held.scanned_cr (held : Held s core) (scanned : s.scanByte cr = .ok s') : Dead s' := by
  cases held with
  | name matched short value same =>
      have next := Held.scanned_name matched short value same scanned
      have other : ∀ k < 14, asciiLower cr ≠ (contentLengthName.map asciiLower)[k]?.getD 0 := by decide
      rwa [if_neg (other core.length short)] at next
  | colon full value length =>
      have scanned := Held.scanned_value full scanned
      simp only [scanValue, value] at scanned
      cases scanned
      exact ⟨rfl, Or.inr full⟩
  | spaces full value length =>
      have scanned := Held.scanned_value full scanned
      simp only [scanValue, value] at scanned
      cases scanned
      exact ⟨rfl, Or.inr full⟩
  | sign full value length =>
      have scanned := Held.scanned_value full scanned
      simp only [scanValue, value] at scanned
      cases scanned
      exact ⟨rfl, Or.inr full⟩
  | digits full value length signed some_digit all far capped =>
      have scanned := Held.scanned_value full scanned
      simp only [scanValue, value] at scanned
      cases scanned
      exact ⟨rfl, Or.inr full⟩

/-- What the guard knows of the open header line: how many of its bytes are counted, whether a carriage
return ends it, and what it may still announce. -/
structure Line (s : HeaderScan) (line : List UInt8) : Prop where
  counted : s.lineLen + doubled line + (if s.pendingCr then 1 else 0) = line.length
  pending : s.pendingCr = true ↔ line.getLast? = some cr
  within : s.lineLen ≤ maxHeaderLen
  blank : s.lineLen = 0 → ∀ b ∈ line, b = cr
  held : (∃ core n, line = core ++ List.replicate n cr ∧ (n = 0 ↔ s.pendingCr = false) ∧ Held s core) ∨
    Dead s

theorem Line.new : Line HeaderScan.new [] where
  counted := rfl
  pending := by decide
  within := Nat.zero_le _
  blank := fun _ => List.forall_mem_nil _
  held := Or.inl ⟨[], 0, rfl, by decide, .name rfl (by decide) rfl rfl⟩

theorem Line.length_le (line_of : Line s line) :
    line.length ≤ maxHeaderLen + 1 + doubled line := by
  have counted := line_of.counted
  have within := line_of.within
  split at counted <;> omega

/-- Pending or not, the scan of a line is the same to a name and a value. -/
theorem Held.of_eq (held : Held s core) (name : s'.name = s.name) (value : s'.value = s.value)
    (far : s'.valueSoFar = s.valueSoFar) : Held s' core := by
  cases held with
  | name matched short dead same => exact .name (name.trans matched) short (value.trans dead) same
  | colon full phase length => exact .colon (name.trans full) (value.trans phase) length
  | spaces full phase length => exact .spaces (name.trans full) (value.trans phase) length
  | sign full phase length => exact .sign (name.trans full) (value.trans phase) length
  | digits full phase length signed some_digit all soFar capped =>
      exact .digits (name.trans full) (value.trans phase) length signed some_digit all
        (far.trans soFar) (far ▸ capped)

theorem Line.cr (line_of : Line s line) : Line { s with pendingCr := true } (line ++ [cr]) where
  counted := by
    have counted := line_of.counted
    have pending := line_of.pending
    rw [doubled_concat, List.length_append, List.length_singleton]
    simp only [← pending, and_true, if_true]
    split at counted
    · next here =>
        rw [if_pos here]
        omega
    · next here =>
        rw [if_neg here]
        omega
  pending := by simp only [List.getLast?_concat]
  within := line_of.within
  blank := by
    intro none_counted b member
    rcases List.mem_append.1 member with before | last
    · exact line_of.blank none_counted b before
    · exact List.mem_singleton.1 last
  held := by
    obtain ⟨core, n, rfl, -, held⟩ | ⟨value, name⟩ := line_of.held
    · refine Or.inl ⟨core, n + 1, ?_, ?_, held.of_eq rfl rfl rfl⟩
      · rw [List.append_assoc, ← List.replicate_succ']
      · simp only [Nat.succ_ne_zero, Bool.true_eq_false]
    · exact Or.inr ⟨value, name⟩

/-- A byte that is no carriage return and no line feed. -/
theorem Line.scanned (line_of : Line s line) (settled : s.pendingCr = false)
    (plain : b ≠ Guard.cr) (scanned : s.scanByte b = .ok s') : Line s' (line ++ [b]) := by
  obtain ⟨length, within, pending⟩ := scanByte_counts scanned
  have counted := line_of.counted
  refine ⟨?_, ?_, ?_, ?_, ?_⟩
  · rw [doubled_concat, List.length_append, List.length_singleton, pending, length, settled]
    rw [settled] at counted
    simp only [plain, and_false, Bool.false_eq_true, if_false] at counted ⊢
    omega
  · simp only [pending, settled, List.getLast?_concat, Option.some.injEq, plain, Bool.false_eq_true]
  · rw [length]
    exact within
  · intro none_counted
    rw [length] at none_counted
    cases none_counted
  · rcases line_of.held with ⟨core, n, rfl, none_open, held⟩ | dead
    · rw [none_open.2 settled, List.replicate_zero, List.append_nil]
      rcases held.scanned scanned with held' | dead
      · refine Or.inl ⟨core ++ [b], 0, by rw [List.replicate_zero, List.append_nil], ?_, held'⟩
        simp only [pending, settled]
      · exact Or.inr dead
    · exact Or.inr (dead.scanned scanned)

/-- A carriage return that was pending is one of the line's bytes. -/
theorem Line.settled (line_of : Line s line) (pending : s.pendingCr = true)
    (scanned : s.scanByte Guard.cr = .ok s') :
    s'.lineLen + doubled line = line.length ∧ s'.lineLen ≤ maxHeaderLen ∧ 0 < s'.lineLen ∧ Dead s' := by
  obtain ⟨length, within, -⟩ := scanByte_counts scanned
  have counted := line_of.counted
  rw [pending, if_pos rfl] at counted
  refine ⟨by omega, by omega, by omega, ?_⟩
  rcases line_of.held with ⟨core, n, -, -, held⟩ | dead
  · exact held.scanned_cr scanned
  · exact dead.scanned scanned

theorem Line.behind_cr {s₁ : HeaderScan} (line_of : Line s line) (pending : s.pendingCr = true)
    (plain : b ≠ Guard.cr) (before : s.scanByte Guard.cr = .ok s₁)
    (scanned : { s₁ with pendingCr := false }.scanByte b = .ok s') : Line s' (line ++ [b]) := by
  obtain ⟨counted, -, -, dead⟩ := line_of.settled pending before
  obtain ⟨length, within, settled⟩ := scanByte_counts scanned
  simp only at length within settled
  have dead : Dead { s₁ with pendingCr := false } := dead
  refine ⟨?_, ?_, ?_, ?_, Or.inr (dead.scanned scanned)⟩
  · rw [doubled_concat, List.length_append, List.length_singleton, settled, length]
    simp only [plain, and_false, Bool.false_eq_true, if_false]
    omega
  · simp only [settled, List.getLast?_concat, Option.some.injEq, plain, Bool.false_eq_true]
  · rw [length]
    exact within
  · intro none_counted
    rw [length] at none_counted
    cases none_counted

/-- **A byte of a header line keeps what is known of the line.** -/
theorem Line.header (line_of : Line s line) (no_feed : b ≠ lf)
    (stepped : scanHeaderByte s announced b = .ok step) :
    Line step.scan (line ++ [b]) ∧ step.announced = announced ∧ step.ended = none := by
  unfold scanHeaderByte at stepped
  split at stepped
  · next here =>
      cases stepped
      rw [here]
      exact ⟨line_of.cr, rfl, rfl⟩
  · next plain =>
      split at stepped
      · next pending =>
          cases before : s.scanByte Guard.cr with
          | error fault =>
              rw [before] at stepped
              cases stepped
          | ok s₁ =>
              rw [before] at stepped
              simp only [Except.map, Except.bind] at stepped
              cases scanned : { s₁ with pendingCr := false }.scanByte b with
              | error fault =>
                  rw [scanned] at stepped
                  cases stepped
              | ok s' =>
                  rw [scanned] at stepped
                  cases stepped
                  exact ⟨line_of.behind_cr pending plain before scanned, rfl, rfl⟩
      · next settled =>
          simp only [Except.bind] at stepped
          cases scanned : s.scanByte b with
          | error fault =>
              rw [scanned] at stepped
              cases stepped
          | ok s' =>
              rw [scanned] at stepped
              cases stepped
              exact ⟨line_of.scanned (Bool.eq_false_iff.2 settled) plain scanned, rfl, rfl⟩

/-! ### Lines of a stream -/

/-- The bytes since the last line feed outside a body. -/
def openLine (g : FramingGuard) (line : List UInt8) : List UInt8 → List UInt8
  | [] => line
  | b :: bytes =>
      match g.feed b with
      | .error _ => line
      | .ok g' =>
          openLine g' (if (g.phase = .body ∧ 0 < g.bodyRemaining) ∨ b = lf then [] else line ++ [b]) bytes

/-- A line feed: the end of the section at an empty line, and of a header at any other. -/
theorem scanHeaderByte_lf (stepped : scanHeaderByte s announced lf = .ok step) :
    (s.lineLen = 0 ∧ ∃ n, announced = some n ∧ step.ended = some n) ∨
      (s.lineLen ≠ 0 ∧ step = ⟨.new, if s.pendingCr then s.announced.or announced else announced, none⟩) := by
  have feed : lf ≠ cr := by decide
  unfold scanHeaderByte at stepped
  rw [if_neg feed, if_pos rfl] at stepped
  split at stepped
  · next blank =>
      cases announced with
      | none => cases stepped
      | some n =>
          cases stepped
          exact Or.inl ⟨blank, n, rfl, rfl⟩
  · next counted =>
      cases stepped
      exact Or.inr ⟨counted, rfl⟩

/-- What a guard knows of the open line. -/
def Open (g : FramingGuard) (line : List UInt8) : Prop :=
  (g.phase = .body ∧ line = []) ∨ (g.phase ≠ .body ∧ Line g.scan line)

theorem Open.fed (known : Open g line) (fed : g.feed b = .ok g') :
    Open g' (if (g.phase = .body ∧ 0 < g.bodyRemaining) ∨ b = lf then [] else line ++ [b]) := by
  have started : Open FramingGuard.new [] := by
    refine Or.inr ⟨?_, Line.new⟩
    rintro ⟨⟩
  by_cases skipped : g.phase = .body ∧ 0 < g.bodyRemaining
  · rw [if_pos (Or.inl skipped)]
    rw [feed, if_pos skipped] at fed
    cases fed
    split
    · exact started
    · exact Or.inl ⟨skipped.1, rfl⟩
  · -- A body that is spent is a header start.
    obtain ⟨h, headers, line_of, fed⟩ : ∃ h : FramingGuard, h.phase ≠ .body ∧ Line h.scan line ∧
        h.feed b = .ok g' := by
      rcases known with ⟨inBody, rfl⟩ | ⟨headers, line_of⟩
      · have spent : g.bodyRemaining = 0 :=
          Nat.eq_zero_of_not_pos fun some_left => skipped ⟨inBody, some_left⟩
        rw [feed_spent inBody spent] at fed
        exact ⟨FramingGuard.new, by rintro ⟨⟩, Line.new, fed⟩
      · exact ⟨g, headers, line_of, fed⟩
    have not_skipped : ¬ ((g.phase = .body ∧ 0 < g.bodyRemaining) ∨ b = lf) ↔ b ≠ lf := by
      rw [not_or, and_iff_right skipped]
    rw [feed_headers headers] at fed
    cases stepped : scanHeaderByte h.scan h.announced b with
    | error fault =>
        rw [stepped] at fed
        cases fed
    | ok step =>
        rw [stepped] at fed
        by_cases feed : b = lf
        · rw [if_pos (Or.inr feed)]
          rw [feed] at stepped
          rcases scanHeaderByte_lf stepped with ⟨-, n, -, ended⟩ | ⟨-, same⟩
          · simp only [Except.map, ended] at fed
            cases fed
            exact Or.inl ⟨rfl, rfl⟩
          · simp only [Except.map, same] at fed
            cases fed
            exact Or.inr ⟨headers, Line.new⟩
        · rw [if_neg (not_skipped.2 feed)]
          obtain ⟨line_of', -, ended⟩ := line_of.header feed stepped
          simp only [Except.map, ended] at fed
          cases fed
          exact Or.inr ⟨headers, line_of'⟩

/-- **The open line, over a run.** -/
theorem Open.run {bytes : List UInt8} (known : Open g line) (ran : g.run pos bytes = .ok g') :
    Open g' (openLine g line bytes) := by
  induction bytes generalizing g line pos with
  | nil =>
      cases ran
      exact known
  | cons b bytes ih =>
      rw [FramingGuard.run] at ran
      rw [openLine]
      cases fed : g.feed b with
      | error fault =>
          rw [fed] at ran
          cases ran
      | ok h =>
          rw [fed] at ran
          exact ih (known.fed fed) ran

theorem Open.length_le (known : Open g line) : line.length ≤ maxHeaderLen + 1 + doubled line := by
  rcases known with ⟨-, rfl⟩ | ⟨-, line_of⟩
  · exact Nat.zero_le _
  · exact line_of.length_le

/-- What a run over part of a header line leaves. -/
theorem run_line {bytes : List UInt8} (headers : g.phase ≠ .body) (line_of : Line g.scan line)
    (no_feed : lf ∉ bytes) (ran : g.run pos bytes = .ok g') :
    g'.phase ≠ .body ∧ Line g'.scan (line ++ bytes) ∧ g'.announced = g.announced := by
  induction bytes generalizing g line pos with
  | nil =>
      cases ran
      rw [List.append_nil]
      exact ⟨headers, line_of, rfl⟩
  | cons b bytes ih =>
      obtain ⟨feed, no_feed⟩ := not_or.1 (List.mem_cons.not.1 no_feed)
      rw [FramingGuard.run, feed_headers headers] at ran
      cases stepped : scanHeaderByte g.scan g.announced b with
      | error fault =>
          rw [stepped] at ran
          cases ran
      | ok step =>
          obtain ⟨line_of', same, ended⟩ := line_of.header (Ne.symm feed) stepped
          rw [stepped] at ran
          simp only [Except.map, ended] at ran
          obtain ⟨headers', whole, announced⟩ :=
            ih (g := { g with scan := step.scan, announced := step.announced }) headers line_of' no_feed ran
          rw [List.append_assoc] at whole
          exact ⟨headers', whole, announced.trans same⟩

/-! ### The bytes of a header -/

/-- Bytes scanned one after another. -/
def scanAll (s : HeaderScan) : List UInt8 → Except Fault HeaderScan
  | [] => .ok s
  | b :: bytes => (s.scanByte b).bind fun s' => scanAll s' bytes

theorem scanAll_append (s : HeaderScan) (front back : List UInt8) :
    scanAll s (front ++ back) = (scanAll s front).bind fun s' => scanAll s' back := by
  induction front generalizing s with
  | nil => rfl
  | cons b front ih =>
      rw [List.cons_append, scanAll, scanAll]
      cases s.scanByte b with
      | error fault => rfl
      | ok s' => exact ih s'

/-- A run over bytes that end no line. -/
theorem run_plain {bytes : List UInt8} (headers : g.phase ≠ .body)
    (settled : g.scan.pendingCr = false) (no_return : cr ∉ bytes) (no_feed : lf ∉ bytes)
    (pos : Nat) :
    (∀ s', scanAll g.scan bytes = .ok s' → g.run pos bytes = .ok { g with scan := s' }) ∧
      (∀ g', g.run pos bytes = .ok g' → scanAll g.scan bytes = .ok g'.scan) := by
  induction bytes generalizing g pos with
  | nil =>
      refine ⟨fun s' scanned => ?_, fun g' ran => ?_⟩
      · cases scanned
        rfl
      · cases ran
        rfl
  | cons b bytes ih =>
      obtain ⟨feed, no_feed⟩ := not_or.1 (List.mem_cons.not.1 no_feed)
      obtain ⟨plain, no_return⟩ := not_or.1 (List.mem_cons.not.1 no_return)
      have stepped : scanHeaderByte g.scan g.announced b =
          (g.scan.scanByte b).map fun scan => ⟨scan, g.announced, none⟩ := by
        unfold scanHeaderByte
        rw [if_neg (Ne.symm plain), if_neg (Ne.symm feed), settled]
        rfl
      rw [FramingGuard.run, feed_headers headers, stepped, scanAll]
      cases scanned : g.scan.scanByte b with
      | error fault =>
          refine ⟨fun s' none_left => ?_, fun g' none_left => ?_⟩
          · cases none_left
          · cases none_left
      | ok s =>
          obtain ⟨-, -, pending⟩ := scanByte_counts scanned
          exact ih (g := { g with scan := s }) headers (pending.trans settled) no_return no_feed (pos + 1)

/-! ### A length's header -/

theorem scanAll_name {k : Nat} (short : k < 14)
    (same : rest.map asciiLower = (contentLengthName.map asciiLower).drop k) :
    scanAll ⟨some k, .dead, 0, k, false⟩ rest = .ok ⟨some 14, .expectColon, 0, 14, false⟩ := by
  induction rest generalizing k with
  | nil =>
      have lengths := congrArg List.length same
      rw [List.length_map, List.length_drop, List.length_map, length_contentLengthName,
        List.length_nil] at lengths
      omega
  | cons b rest ih =>
      have within : k < (contentLengthName.map asciiLower).length := by
        rw [List.length_map]
        exact short
      rw [List.drop_eq_getElem_cons within, List.map_cons, List.cons.injEq, List.getElem_map] at same
      have here := List.getElem?_eq_getElem (l := contentLengthName) short
      have not_long : ¬ (k + 1 > maxHeaderLen) := by
        rw [maxHeaderLen]
        omega
      have matched : (contentLengthName[k]?).any (eqIgnoreCase b) = true := by
        rw [here, Option.any_some, eqIgnoreCase, beq_iff_eq]
        exact same.1
      have scanned : HeaderScan.scanByte ⟨some k, .dead, 0, k, false⟩ b =
          .ok ⟨some (k + 1), if k + 1 = 14 then .expectColon else .dead, 0, k + 1, false⟩ := by
        rw [scanByte_eq]
        simp only [not_long, if_false, length_contentLengthName, short, if_true, scanName, matched]
        rfl
      rw [scanAll, scanned]
      by_cases last : k + 1 = 14
      · have none_left : rest = [] := by
          have lengths := congrArg List.length same.2
          rw [List.length_map, List.length_drop, List.length_map, length_contentLengthName] at lengths
          exact List.eq_nil_of_length_eq_zero (by omega)
        rw [none_left, last]
        rfl
      · rw [if_neg last]
        exact ih (by omega) same.2

theorem decimal_le (front back : List UInt8) : decimal front ≤ decimal (front ++ back) := by
  induction back generalizing front with
  | nil => exact Nat.le_of_eq (congrArg decimal (List.append_nil front).symm)
  | cons b back ih =>
      have step := ih (front ++ [b])
      rw [List.append_assoc, List.singleton_append] at step
      refine Nat.le_trans ?_ step
      rw [decimal_concat]
      omega

/-- Digits scanned: they fit the line and the value fits the cap. -/
theorem scanAll_digits {s s' : HeaderScan} {seen rest : List UInt8} (full : s.name = some 14)
    (value : s.value = .digits) (far : s.valueSoFar = decimal seen) (capped : s.valueSoFar ≤ maxFrameLen)
    (within : s.lineLen ≤ maxHeaderLen) (all : ∀ b ∈ rest, isDigit b = true) :
    scanAll s rest = .ok s' ↔
      s.lineLen + rest.length ≤ maxHeaderLen ∧ decimal (seen ++ rest) ≤ maxFrameLen ∧
        s' = { s with lineLen := s.lineLen + rest.length, valueSoFar := decimal (seen ++ rest) } := by
  induction rest generalizing s seen with
  | nil =>
      rw [scanAll, List.append_nil, ← far, Except.ok.injEq, List.length_nil, Nat.add_zero]
      constructor
      · rintro rfl
        exact ⟨within, capped, rfl⟩
      · rintro ⟨-, -, rfl⟩
        rfl
  | cons b rest ih =>
      have more : moreDigits s.valueSoFar b = decimal (seen ++ [b]) := by
        rw [moreDigits_eq capped (all b (List.mem_cons_self ..)), decimal_concat, far]
      have whole : seen ++ b :: rest = seen ++ [b] ++ rest := by
        rw [List.append_assoc, List.singleton_append]
      have grows := decimal_le (seen ++ [b]) rest
      rw [scanAll, scanByte_eq]
      by_cases long : s.lineLen + 1 > maxHeaderLen
      · rw [if_pos long]
        constructor
        · rintro ⟨⟩
        · rintro ⟨fits, -, -⟩
          rw [List.length_cons] at fits
          omega
      · rw [if_neg long]
        simp only [full, length_contentLengthName, Nat.lt_irrefl, if_false, scanValue, value,
          all b (List.mem_cons_self ..), if_true, more]
        by_cases large : decimal (seen ++ [b]) > maxFrameLen
        · rw [if_pos large]
          constructor
          · rintro ⟨⟩
          · rintro ⟨-, fits, -⟩
            rw [whole] at fits
            omega
        · rw [if_neg large]
          have next := @ih { s with lineLen := s.lineLen + 1, valueSoFar := decimal (seen ++ [b]) }
            (seen ++ [b]) full value rfl (Nat.not_lt.1 large) (Nat.not_lt.1 long)
            (fun b' member => all b' (List.mem_cons_of_mem b member))
          rw [← whole] at next
          simp only [full, value, List.length_cons, Nat.add_assoc, Nat.add_comm 1] at next ⊢
          exact next

/-- **A length's header is scanned to its value.** -/
theorem scanAll_length {name digits : List UInt8} (length : isContentLength name = true)
    (signed : sign = [] ∨ sign = [plus]) (some_digit : digits ≠ [])
    (all : ∀ b ∈ digits, isDigit b = true) :
    scanAll .new (name ++ colon :: space :: (sign ++ digits)) = .ok s' ↔
      16 + sign.length + digits.length ≤ maxHeaderLen ∧ decimal digits ≤ maxFrameLen ∧
        s' = ⟨some 14, .digits, decimal digits, 16 + sign.length + digits.length, false⟩ := by
  have named : scanAll .new name = .ok ⟨some 14, .expectColon, 0, 14, false⟩ := by
    rw [isContentLength, beq_iff_eq] at length
    exact scanAll_name (by decide) length
  have spaced (rest : List UInt8) :
      scanAll ⟨some 14, .expectColon, 0, 14, false⟩ (colon :: space :: rest) =
        scanAll ⟨some 14, .skipSpaces, 0, 16, false⟩ rest := rfl
  rw [scanAll_append, named]
  simp only [Except.bind, spaced]
  obtain ⟨b, digits, rfl⟩ := List.exists_cons_of_ne_nil some_digit
  have here := all b (List.mem_cons_self ..)
  have small := digit_le here
  have not_space : b ≠ space := by
    rintro rfl
    exact absurd here (by decide)
  have not_plus : b ≠ plus := by
    rintro rfl
    exact absurd here (by decide)
  have one : decimal [b] = digit b := by
    simp only [decimal, List.foldl_cons, List.foldl_nil, Nat.zero_mul, Nat.zero_add]
  have rest (n : Nat) (within : n ≤ maxHeaderLen) :
      scanAll ⟨some 14, .digits, digit b, n, false⟩ digits = .ok s' ↔
        n + digits.length ≤ maxHeaderLen ∧ decimal (b :: digits) ≤ maxFrameLen ∧
          s' = ⟨some 14, .digits, decimal (b :: digits), n + digits.length, false⟩ :=
    @scanAll_digits ⟨some 14, .digits, digit b, n, false⟩ s' [b] digits rfl rfl one.symm
      (Nat.le_trans small (by decide)) within fun b' member => all b' (List.mem_cons_of_mem b member)
  rcases signed with rfl | rfl
  · have first : HeaderScan.scanByte ⟨some 14, .skipSpaces, 0, 16, false⟩ b =
        .ok ⟨some 14, .digits, digit b, 17, false⟩ := by
      rw [scanByte_eq, if_neg (by decide)]
      simp only [length_contentLengthName, Nat.lt_irrefl, if_false, scanValue, not_space, not_plus, here,
        if_true]
    have next := rest 17 (by decide)
    rw [List.nil_append, scanAll, first, List.length_nil, List.length_cons, Nat.add_zero,
      Nat.add_comm digits.length, ← Nat.add_assoc]
    exact next
  · have first : HeaderScan.scanByte ⟨some 14, .expectDigits, 0, 17, false⟩ b =
        .ok ⟨some 14, .digits, digit b, 18, false⟩ := by
      rw [scanByte_eq, if_neg (by decide)]
      simp only [length_contentLengthName, Nat.lt_irrefl, if_false, scanValue, here, if_true]
    have signed : HeaderScan.scanByte ⟨some 14, .skipSpaces, 0, 16, false⟩ plus =
        .ok ⟨some 14, .expectDigits, 0, 17, false⟩ := rfl
    have next := rest 18 (by decide)
    rw [List.singleton_append, scanAll, signed, Except.bind, scanAll, first, List.length_singleton,
      List.length_cons, Nat.add_comm digits.length, ← Nat.add_assoc]
    exact next

/-! ### The client's reader -/

theorem splitOnce_eq {name value : List UInt8} (split_at : splitOnce line = some (name, value)) :
    line = name ++ colon :: space :: value := by
  induction line using splitOnce.induct generalizing name value with
  | case1 b b' rest here =>
      rw [splitOnce, if_pos here] at split_at
      cases split_at
      rw [here.1, here.2]
      rfl
  | case2 b b' rest other ih =>
      rw [splitOnce, if_neg other] at split_at
      cases later : splitOnce (b' :: rest) with
      | none =>
          rw [later] at split_at
          cases split_at
      | some parts =>
          rw [later] at split_at
          cases split_at
          rw [List.cons_append, ← ih later]
  | case3 line short =>
      unfold splitOnce at split_at
      split at split_at
      · next b b' rest => exact absurd rfl (short b b' rest)
      · cases split_at

/-- The split is at the first colon with a space. -/
theorem splitOnce_of_not_mem {name : List UInt8} (no_colon : colon ∉ name) (value : List UInt8) :
    splitOnce (name ++ colon :: space :: value) = some (name, value) := by
  induction name with
  | nil => rfl
  | cons b name ih =>
      obtain ⟨other, no_colon⟩ := not_or.1 (List.mem_cons.not.1 no_colon)
      obtain ⟨b', rest, more⟩ : ∃ b' rest, name ++ colon :: space :: value = b' :: rest := by
        cases name with
        | nil => exact ⟨_, _, rfl⟩
        | cons b' name => exact ⟨_, _, rfl⟩
      have apart : ¬ (b = colon ∧ b' = space) := fun both => other both.1.symm
      rw [List.cons_append, more, splitOnce, if_neg apart, ← more, ih no_colon]
      rfl

/-- What a value that parses is made of. -/
theorem parseUsize_eq {text : List UInt8} (parsed : parseUsize text = some n) :
    ∃ sign digits, text = sign ++ digits ∧ (sign = [] ∨ sign = [plus]) ∧ digits ≠ [] ∧
      (∀ b ∈ digits, isDigit b = true) ∧ decimal digits = n := by
  rw [parseUsize] at parsed
  simp only [Option.ite_none_right_eq_some, Option.some.injEq, List.all_eq_true] at parsed
  obtain ⟨⟨some_digit, all, -⟩, value⟩ := parsed
  by_cases signed : text.head? = some plus
  · rw [if_pos signed] at some_digit all value
    obtain ⟨rest, rfl⟩ : ∃ rest, text = plus :: rest := by
      cases text with
      | nil =>
          rw [List.head?_nil] at signed
          cases signed
      | cons b rest =>
          rw [List.head?_cons, Option.some.injEq] at signed
          exact ⟨rest, by rw [signed]⟩
    exact ⟨[plus], rest, rfl, Or.inr rfl, some_digit, all, value⟩
  · rw [if_neg signed] at some_digit all value
    exact ⟨[], text, rfl, Or.inl rfl, some_digit, all, value⟩

/-- No byte of a length's header ends a line. -/
theorem plain_length {name digits : List UInt8} (length : isContentLength name = true)
    (signed : sign = [] ∨ sign = [plus]) (all : ∀ b ∈ digits, isDigit b = true)
    (member : b ∈ name ++ colon :: space :: (sign ++ digits)) : b ≠ cr ∧ b ≠ lf := by
  have named : ∀ b', asciiLower b' ∈ contentLengthName.map asciiLower → b' ≠ cr ∧ b' ≠ lf := by
    rintro b' member
    constructor
    · rintro rfl
      exact absurd member (by decide)
    · rintro rfl
      exact absurd member (by decide)
  rw [isContentLength, beq_iff_eq] at length
  simp only [List.mem_append, List.mem_cons] at member
  rcases member with member | rfl | rfl | member | member
  · exact named b (length ▸ List.mem_map_of_mem member)
  · decide
  · decide
  · rcases signed with rfl | rfl
    · cases member
    · rw [List.mem_singleton.1 member]
      decide
  · have digits := all b member
    constructor
    · rintro rfl
      exact absurd digits (by decide)
    · rintro rfl
      exact absurd digits (by decide)

/-- A line the guard reads a value off is a length's to the client, if it splits at all. -/
theorem Held.read {name value : List UInt8} {m : Nat} (held : Held s core)
    (announced : s.announced = some n)
    (split_at : splitOnce (core ++ List.replicate m cr) = some (name, value)) :
    isContentLength name = true := by
  have digits : s.value = .digits := by
    by_contra other
    rw [HeaderScan.announced, if_neg other] at announced
    cases announced
  cases held with
  | name matched short dead same =>
      rw [dead] at digits
      cases digits
  | colon full phase length =>
      rw [phase] at digits
      cases digits
  | spaces full phase length =>
      rw [phase] at digits
      cases digits
  | sign full phase length =>
      rw [phase] at digits
      cases digits
  | @digits name' sign digits k full phase length signed some_digit all far capped =>
      cases k with
      | zero =>
          -- Without a space there is nothing to split at.
          have spaced : space ∈ name' ++ Guard.colon :: (List.replicate 0 space ++ (sign ++ digits)) ++
              List.replicate m cr := by
            rw [splitOnce_eq split_at]
            exact List.mem_append_right _ (List.mem_cons_of_mem _ (List.mem_cons_self ..))
          have no_space : asciiLower space ∉ contentLengthName.map asciiLower := by decide
          rw [isContentLength, beq_iff_eq] at length
          simp only [List.replicate_zero, List.nil_append, List.mem_append, List.mem_cons,
            List.mem_replicate] at spaced
          rcases spaced with ((member | colon_space | member | member) | ⟨-, cr_space⟩)
          · exact absurd (length ▸ List.mem_map_of_mem member) no_space
          · exact absurd colon_space (by decide)
          · rcases signed with rfl | rfl
            · cases member
            · exact absurd (List.mem_singleton.1 member) (by decide)
          · exact absurd (all space member) (by decide)
          · exact absurd cr_space (by decide)
      | succ k =>
          have whole : name' ++ Guard.colon :: (List.replicate (k + 1) space ++ (sign ++ digits)) ++
              List.replicate m cr =
              name' ++ Guard.colon :: space :: (List.replicate k space ++ (sign ++ digits) ++
                List.replicate m cr) := by
            rw [List.replicate_succ, List.append_assoc]
            rfl
          rw [whole, splitOnce_of_not_mem (colon_not_mem length)] at split_at
          cases split_at
          exact length

/-- A byte of a line that leaves the guard in its headers. -/
theorem feed_lf (headers : g.phase ≠ .body) (fed : g.feed lf = .ok g') :
    (g.scan.lineLen = 0 → g.announced = some n → g' = ⟨.body, .new, none, n⟩) ∧
      (g.scan.lineLen ≠ 0 → g' = { g with
        scan := .new
        announced := if g.scan.pendingCr then g.scan.announced.or g.announced else g.announced }) := by
  rw [feed_headers headers] at fed
  cases stepped : scanHeaderByte g.scan g.announced lf with
  | error fault =>
      rw [stepped] at fed
      cases fed
  | ok step =>
      rw [stepped] at fed
      rcases scanHeaderByte_lf stepped with ⟨blank, n', far, ended⟩ | ⟨counted, rfl⟩
      · simp only [Except.map, ended] at fed
        cases fed
        refine ⟨fun _ same => ?_, fun counted => absurd blank counted⟩
        rw [far, Option.some.injEq] at same
        rw [same]
      · cases fed
        exact ⟨fun blank => absurd blank counted, fun _ => rfl⟩

/-- **A header line that the client accepts, over the guard.** -/
theorem run_accepted {name value : List UInt8} (headers : g.phase ≠ .body) (fresh : g.scan = .new)
    (no_feed : lf ∉ line) (ended : line.getLast? = some cr)
    (split_at : splitOnce line.dropLast = some (name, value))
    (ran : g.run pos (line ++ [lf]) = .ok g') : g'.phase ≠ .body ∧ g'.scan = .new ∧
      (isContentLength name = false → g'.announced = g.announced) ∧
      (isContentLength name = true → ∀ n, parseUsize value = some n →
        n ≤ maxFrameLen ∧ g'.announced = some n) := by
  have whole : line.dropLast ++ [cr] = line := List.dropLast_append_getLast? cr ended
  rw [run_append] at ran
  cases before : g.run pos line with
  | error found =>
      rw [before] at ran
      cases ran
  | ok h =>
      rw [before] at ran
      obtain ⟨headers', line_of, same⟩ := run_line headers (fresh ▸ Line.new) no_feed before
      rw [List.nil_append] at line_of
      have fed : h.feed lf = .ok g' := by
        simp only [Except.bind, run] at ran
        cases fed : h.feed lf with
        | error fault =>
            rw [fed] at ran
            cases ran
        | ok h' =>
            rw [fed] at ran
            cases ran
            rfl
      have counted : h.scan.lineLen ≠ 0 := by
        intro blank
        have member : colon ∈ line := by
          rw [← whole, splitOnce_eq split_at]
          exact List.mem_append_left _ (List.mem_append_right _ (List.mem_cons_self ..))
        exact absurd (line_of.blank blank colon member) (by decide)
      have left := (feed_lf (n := 0) headers' fed).2 counted
      rw [line_of.pending.2 ended, if_pos rfl, same] at left
      rw [left]
      refine ⟨headers', rfl, fun other => ?_, fun length n parsed => ?_⟩
      · have nothing : h.scan.announced = none := by
          by_contra announced
          obtain ⟨n, announced⟩ := Option.ne_none_iff_exists'.1 announced
          rcases line_of.held with ⟨core, m, parts, settled, held⟩ | dead
          · cases m with
            | zero =>
                have pending := line_of.pending.2 ended
                rw [settled.1 rfl] at pending
                cases pending
            | succ m =>
                rw [parts, List.replicate_succ', ← List.append_assoc, List.dropLast_concat] at split_at
                rw [held.read announced split_at] at other
                cases other
          · rw [HeaderScan.announced, dead.1] at announced
            cases announced
        simp only [nothing, Option.none_or]
      · obtain ⟨sign, digits, rfl, signed, some_digit, all, rfl⟩ := parseUsize_eq parsed
        have front := splitOnce_eq split_at
        have plain : ∀ b ∈ line.dropLast, b ≠ cr ∧ b ≠ lf := by
          intro b member
          rw [front] at member
          exact plain_length length signed all member
        rw [← whole, run_append] at before
        cases read : g.run pos line.dropLast with
        | error found =>
            rw [read] at before
            cases before
        | ok h₁ =>
            have scanned := (run_plain headers (by rw [fresh]; rfl) (fun member => (plain cr member).1 rfl)
              (fun member => (plain lf member).2 rfl) pos).2 h₁ read
            obtain ⟨headers₁, -, -⟩ := run_line headers (fresh ▸ Line.new)
              (fun member => (plain lf member).2 rfl) read
            rw [fresh, front, scanAll_length length signed some_digit all] at scanned
            obtain ⟨-, capped, held⟩ := scanned
            have returned : h₁.feed cr = .ok { h₁ with scan := { h₁.scan with pendingCr := true } } := by
              rw [feed_headers headers₁]
              rfl
            rw [read] at before
            simp only [Except.bind, run, returned, Except.ok.injEq] at before
            refine ⟨capped, ?_⟩
            simp only [← before, held, HeaderScan.announced, if_true, Option.some_or]

/-- **A header section that the client reads, over the guard: the body is as long, and within the cap.** -/
theorem run_section {lines : List (List UInt8)} (headers : g.phase ≠ .body)
    (fresh : g.scan = .new) (same : g.announced = announced)
    (capped : ∀ m, announced = some m → m ≤ maxFrameLen) (no_feed : ∀ line ∈ lines, lf ∉ line)
    (header : readHeader announced lines = some n)
    (ran : g.run pos (lineBytes lines ++ rest) = .ok g') :
    n ≤ maxFrameLen ∧ ∃ pos', FramingGuard.run ⟨.body, .new, none, n⟩ pos' rest = .ok g' := by
  induction lines generalizing g announced pos with
  | nil =>
      rw [readHeader] at header
      cases header
  | cons line lines ih =>
      have plain := no_feed line (List.mem_cons_self ..)
      have no_feed := fun line' member => no_feed line' (List.mem_cons_of_mem line member)
      have parts : lineBytes (line :: lines) ++ rest = (line ++ [lf]) ++ (lineBytes lines ++ rest) := by
        rw [lineBytes, List.flatMap_cons, ← lineBytes, List.append_assoc]
      rw [parts, run_append] at ran
      cases before : g.run pos (line ++ [lf]) with
      | error found =>
          rw [before] at ran
          cases ran
      | ok h =>
          rw [before] at ran
          simp only [Except.bind] at ran
          rw [readHeader] at header
          by_cases blank : line = [cr]
          · rw [if_pos blank] at header
            by_cases last : lines = []
            · rw [if_pos last] at header
              have returned : g.feed cr = .ok { g with scan := { g.scan with pendingCr := true } } := by
                rw [feed_headers headers]
                rfl
              rw [blank, List.singleton_append, run, returned] at before
              simp only [run] at before
              cases fed : FramingGuard.feed { g with scan := { g.scan with pendingCr := true } } lf with
              | error fault =>
                  rw [fed] at before
                  cases before
              | ok h' =>
                  rw [fed] at before
                  cases before
                  have ended := (feed_lf (g := { g with scan := { g.scan with pendingCr := true } }) headers fed).1
                    (by rw [fresh]; rfl) (same.trans header)
                  rw [ended, last] at ran
                  exact ⟨capped n header, _, ran⟩
            · rw [if_neg last] at header
              cases header
          · rw [if_neg blank] at header
            by_cases ended : line.getLast? = some cr
            · rw [if_neg (not_not.2 ended)] at header
              cases split_at : splitOnce line.dropLast with
              | none =>
                  rw [split_at] at header
                  cases header
              | some parts =>
                  obtain ⟨name, value⟩ := parts
                  obtain ⟨headers', fresh', other, length⟩ :=
                    run_accepted headers fresh plain ended split_at before
                  rw [split_at] at header
                  by_cases named : isContentLength name = true
                  · simp only [named, if_true] at header
                    cases parsed : parseUsize value with
                    | none =>
                        rw [parsed] at header
                        cases header
                    | some m =>
                        rw [parsed] at header
                        obtain ⟨small, far⟩ := length named m parsed
                        exact ih headers' fresh' far (fun m' some_m => Option.some.inj some_m ▸ small) no_feed
                          header ran
                  · simp only [named] at header
                    exact ih headers' fresh' ((other (Bool.eq_false_iff.2 named)).trans same) capped no_feed
                      header ran
            · rw [if_pos ended] at header
              cases header

/-- **What the client is told to hold, over a stream that did not fail.** -/
theorem asyncReads_le {stream : List UInt8} {ns : List Nat} (reads : AsyncReads stream ns)
    (started : g = .new ∨ (g.phase = .body ∧ g.bodyRemaining = 0))
    (ran : g.run pos stream = .ok g') : ∀ n ∈ ns, n ≤ maxFrameLen := by
  induction reads generalizing g g' pos with
  | stop stream => exact List.forall_mem_nil _
  | @frame lines n rest ns no_feed header more ih =>
      have some_byte : lineBytes lines ++ rest ≠ [] := by
        cases lines with
        | nil => cases header
        | cons line lines =>
            rw [lineBytes, List.flatMap_cons, List.append_assoc, List.append_assoc]
            exact List.append_ne_nil_of_right_ne_nil _ (List.cons_ne_nil lf _)
      have ran : FramingGuard.new.run pos (lineBytes lines ++ rest) = .ok g' := by
        rcases started with rfl | ⟨inBody, spent⟩
        · exact ran
        · rwa [run_spent inBody spent some_byte] at ran
      have headers : FramingGuard.new.phase ≠ .body := by rintro ⟨⟩
      obtain ⟨capped, pos', inside⟩ := run_section headers rfl rfl (by rintro m ⟨⟩) no_feed header ran
      have later : ∀ m ∈ ns, m ≤ maxFrameLen := by
        rcases Nat.eq_zero_or_pos n with none_left | some_left
        · rw [none_left, List.drop_zero] at ih
          rw [none_left] at inside
          exact ih (Or.inr ⟨rfl, rfl⟩) inside
        · by_cases whole : n ≤ rest.length
          · have taken : (rest.take n).length = n := List.length_take_of_le whole
            have some_taken : rest.take n ≠ [] := by
              intro empty
              rw [empty, List.length_nil] at taken
              omega
            rw [← List.take_append_drop n rest, run_append, run_whole rfl some_taken taken] at inside
            exact ih (Or.inl rfl) inside
          · have nothing : rest.drop n = [] := List.drop_eq_nil_of_le (by omega)
            rw [nothing] at ih
            exact @ih _ _ 0 (Or.inl rfl) rfl
      intro m member
      rcases List.mem_cons.1 member with rfl | member
      · exact capped
      · exact later m member

/-! ### Well-formed frames -/

/-- A header other than the length's. -/
structure Header where
  name : List UInt8
  value : List UInt8
  other : isContentLength name = false
  no_colon : colon ∉ name
  plain : ∀ b ∈ name ++ value, b ≠ cr ∧ b ≠ lf

/-- The line of a header. -/
def headerLine (name value : List UInt8) : List UInt8 := name ++ colon :: space :: value ++ [cr, lf]

/-- A frame: headers about the length's, and a body of that length. -/
structure Frame where
  before : List Header
  name : List UInt8
  digits : List UInt8
  behind : List Header
  body : List UInt8
  length : isContentLength name = true
  some_digit : digits ≠ []
  all : ∀ b ∈ digits, isDigit b = true
  whole : decimal digits = body.length
  capped : body.length ≤ maxFrameLen
  within : (headerLine name digits).length ≤ maxHeaderLen
  within_others : ∀ header ∈ before ++ behind, (headerLine header.name header.value).length ≤ maxHeaderLen

def Frame.bytes (frame : Frame) : List UInt8 :=
  frame.before.flatMap (fun header => headerLine header.name header.value) ++
    headerLine frame.name frame.digits ++
    frame.behind.flatMap (fun header => headerLine header.name header.value) ++ [cr, lf] ++ frame.body

/-- `X: y`, `Content-Length: 2` and the body `{}`. -/
def braces : Frame where
  before := [⟨[88], [121], by decide, by decide, by simp [cr, lf]⟩]
  name := 67 :: contentLengthName.drop 1
  digits := [50]
  behind := []
  body := [123, 125]
  length := by decide
  some_digit := by decide
  all := by simp [isDigit]
  whole := by decide
  capped := by simp [maxFrameLen]
  within := by simp [headerLine, contentLengthName, maxHeaderLen]
  within_others := by simp [headerLine, maxHeaderLen]

example : FramingGuard.new.run 0 (braces.bytes ++ braces.bytes) = .ok .new := rfl

/-- At the start of a header section: anew, or behind an empty body. -/
def AtHeaderStart (g : FramingGuard) : Prop := g = .new ∨ g = ⟨.body, .new, none, 0⟩

theorem run_then {h : FramingGuard} {front back : List UInt8} (first : g.run pos front = .ok h) :
    g.run pos (front ++ back) = h.run (pos + front.length) back := by
  rw [run_append, first]
  rfl

/-- A header line's end. -/
theorem run_crlf (headers : g.phase ≠ .body) (counted : g.scan.lineLen ≠ 0) (pos : Nat) :
    g.run pos [cr, lf] = .ok { g with scan := .new, announced := g.scan.announced.or g.announced } := by
  have returned : g.feed cr = .ok { g with scan := { g.scan with pendingCr := true } } := by
    rw [feed_headers headers]
    rfl
  have fed : FramingGuard.feed { g with scan := { g.scan with pendingCr := true } } lf =
      .ok { g with scan := .new, announced := g.scan.announced.or g.announced } := by
    have feed : lf ≠ cr := by decide
    have stepped : scanHeaderByte { g.scan with pendingCr := true } g.announced lf =
        .ok ⟨.new, g.scan.announced.or g.announced, none⟩ := by
      unfold scanHeaderByte
      rw [if_neg feed, if_pos rfl, if_neg counted, if_pos rfl]
      rfl
    have fed := feed_headers (g := { g with scan := { g.scan with pendingCr := true } }) headers lf
    simp only [stepped, Except.map] at fed
    exact fed
  simp only [run, returned, fed]

/-- Only a value's digit and a long line fail. -/
theorem scanByte_ok (fits : s.lineLen + 1 ≤ maxHeaderLen) (no_value : s.value ≠ .digits)
    (b : UInt8) : ∃ s', s.scanByte b = .ok s' := by
  have valued (s : HeaderScan) (no_value : s.value ≠ .digits) : ∃ s', s.scanValue b = .ok s' := by
    unfold scanValue
    split
    · exact ⟨_, rfl⟩
    · split
      · exact ⟨_, rfl⟩
      · split
        · exact ⟨_, rfl⟩
        · split <;> exact ⟨_, rfl⟩
    · split <;> exact ⟨_, rfl⟩
    · next digits => exact absurd digits no_value
    · exact ⟨_, rfl⟩
  rw [scanByte_eq, if_neg (Nat.not_lt.2 fits)]
  split
  · split
    · exact ⟨_, rfl⟩
    · exact valued _ no_value
  · exact valued _ no_value

theorem scanAll_dead {bytes : List UInt8} {s : HeaderScan} (dead : Dead s)
    (fits : s.lineLen + bytes.length ≤ maxHeaderLen) :
    ∃ s', scanAll s bytes = .ok s' ∧ s'.lineLen = s.lineLen + bytes.length ∧ Dead s' := by
  induction bytes generalizing s with
  | nil => exact ⟨s, rfl, rfl, dead⟩
  | cons b bytes ih =>
      rw [List.length_cons] at fits
      obtain ⟨s₁, scanned⟩ := scanByte_ok (s := s) (by omega) (by rw [dead.1]; rintro ⟨⟩) b
      obtain ⟨length, -, -⟩ := scanByte_counts scanned
      obtain ⟨s', rest, length', dead'⟩ := ih (dead.scanned scanned) (by omega)
      refine ⟨s', ?_, ?_, dead'⟩
      · rw [scanAll, scanned]
        exact rest
      · rw [length', length, List.length_cons]
        omega

/-- No value before a colon. -/
theorem no_value_of_no_colon (held : Held s core ∨ Dead s) (no_colon : colon ∉ core) :
    s.value ≠ .digits := by
  intro digits
  rcases held with held | dead
  · cases held with
    | name matched short value same =>
        rw [value] at digits
        cases digits
    | colon full value length =>
        rw [value] at digits
        cases digits
    | spaces full value length =>
        rw [value] at digits
        cases digits
    | sign full value length =>
        rw [value] at digits
        cases digits
    | digits full value length signed some_digit all far capped =>
        exact no_colon (List.mem_append_right _ (List.mem_cons_self ..))
  · rw [dead.1] at digits
    cases digits

/-- Bytes before a colon. -/
theorem scanAll_before_colon {bytes : List UInt8} (held : Held s core ∨ Dead s)
    (no_colon : colon ∉ core ++ bytes) (fits : s.lineLen + bytes.length ≤ maxHeaderLen) :
    ∃ s', scanAll s bytes = .ok s' ∧ s'.lineLen = s.lineLen + bytes.length ∧
      (Held s' (core ++ bytes) ∨ Dead s') := by
  induction bytes generalizing s core with
  | nil =>
      rw [List.append_nil]
      exact ⟨s, rfl, rfl, held⟩
  | cons b bytes ih =>
      rw [List.length_cons] at fits
      have no_value := no_value_of_no_colon held fun member => no_colon (List.mem_append_left _ member)
      obtain ⟨s₁, scanned⟩ := scanByte_ok (by omega) no_value b
      obtain ⟨length, -, -⟩ := scanByte_counts scanned
      have held₁ : Held s₁ (core ++ [b]) ∨ Dead s₁ := by
        rcases held with held | dead
        · exact held.scanned scanned
        · exact Or.inr (dead.scanned scanned)
      have whole : core ++ [b] ++ bytes = core ++ b :: bytes := by
        rw [List.append_assoc, List.singleton_append]
      obtain ⟨s', rest, length', held'⟩ := ih held₁ (whole ▸ no_colon) (by omega)
      refine ⟨s', ?_, ?_, whole ▸ held'⟩
      · rw [scanAll, scanned]
        exact rest
      · rw [length', length, List.length_cons]
        omega

/-- A header that is not the length's announces nothing. -/
theorem scanAll_header {name value : List UInt8} (other : isContentLength name = false)
    (no_colon : colon ∉ name) (fits : (name ++ colon :: space :: value).length ≤ maxHeaderLen) :
    ∃ s', scanAll .new (name ++ colon :: space :: value) = .ok s' ∧ s'.lineLen ≠ 0 ∧
      s'.announced = none := by
  rw [List.length_append, List.length_cons] at fits
  have started : Held .new [] := .name rfl (by decide) rfl rfl
  have fits_name : HeaderScan.new.lineLen + name.length ≤ maxHeaderLen := by
    simp only [HeaderScan.new]
    omega
  obtain ⟨s₁, named, length, held⟩ := scanAll_before_colon (Or.inl started) (by simpa using no_colon) fits_name
  rw [List.nil_append] at held
  simp only [HeaderScan.new, Nat.zero_add] at length
  obtain ⟨s₂, colon_read⟩ := scanByte_ok (by omega) (no_value_of_no_colon held no_colon) colon
  obtain ⟨length₂, -, -⟩ := scanByte_counts colon_read
  have dead : Dead s₂ := by
    rcases held with held | dead
    · cases held with
      | name matched short value same =>
          have next := Held.scanned_name matched short value same colon_read
          have apart : ∀ k < 14, asciiLower colon ≠ (contentLengthName.map asciiLower)[k]?.getD 0 := by
            decide
          rwa [if_neg (apart _ short)] at next
      | colon full value length =>
          rw [length] at other
          cases other
      | spaces => exact absurd (List.mem_append_right _ (List.mem_cons_self ..)) no_colon
      | sign => exact absurd (List.mem_append_right _ (List.mem_cons_self ..)) no_colon
      | digits => exact absurd (List.mem_append_right _ (List.mem_cons_self ..)) no_colon
    · exact dead.scanned colon_read
  obtain ⟨s', rest, length', dead'⟩ := @scanAll_dead (space :: value) _ dead (by omega)
  refine ⟨s', ?_, ?_, ?_⟩
  · rw [scanAll_append, named]
    simp only [Except.bind, scanAll, colon_read] at rest ⊢
    exact rest
  · rw [length', length₂]
    omega
  · rw [HeaderScan.announced, dead'.1]
    rfl

/-- **A header line runs through.** -/
theorem run_headerLine {name value : List UInt8} (headers : g.phase ≠ .body)
    (fresh : g.scan = .new) (plain : ∀ b ∈ name ++ colon :: space :: value, b ≠ cr ∧ b ≠ lf)
    (scanned : scanAll .new (name ++ colon :: space :: value) = .ok s') (counted : s'.lineLen ≠ 0)
    (pos : Nat) : g.run pos (headerLine name value) =
      .ok { g with scan := .new, announced := s'.announced.or g.announced } := by
  have front := (run_plain headers (by rw [fresh]; rfl) (fun member => (plain cr member).1 rfl)
    (fun member => (plain lf member).2 rfl) pos).1 s' (fresh ▸ scanned)
  rw [headerLine, run_append, front]
  exact run_crlf (g := { g with scan := s' }) headers counted _

theorem run_other (headers : g.phase ≠ .body) (fresh : g.scan = .new) (header : Header)
    (within : (headerLine header.name header.value).length ≤ maxHeaderLen) (pos : Nat) :
    g.run pos (headerLine header.name header.value) = .ok g := by
  have fits : (header.name ++ colon :: space :: header.value).length ≤ maxHeaderLen := by
    rw [headerLine, List.length_append] at within
    omega
  obtain ⟨s', scanned, counted, nothing⟩ := scanAll_header header.other header.no_colon fits
  have plain : ∀ b ∈ header.name ++ colon :: space :: header.value, b ≠ cr ∧ b ≠ lf := by
    intro b member
    simp only [List.mem_append, List.mem_cons] at member
    rcases member with member | rfl | rfl | member
    · exact header.plain b (List.mem_append_left _ member)
    · decide
    · decide
    · exact header.plain b (List.mem_append_right _ member)
  have ran := run_headerLine headers fresh plain scanned counted pos
  rw [nothing, Option.none_or, ← fresh] at ran
  exact ran

theorem run_others (headers : g.phase ≠ .body) (fresh : g.scan = .new) (others : List Header)
    (within : ∀ header ∈ others, (headerLine header.name header.value).length ≤ maxHeaderLen)
    (pos : Nat) :
    g.run pos (others.flatMap fun header => headerLine header.name header.value) = .ok g := by
  induction others generalizing pos with
  | nil => rfl
  | cons header others ih =>
      have first := run_other headers fresh header (within header (List.mem_cons_self ..)) pos
      rw [List.flatMap_cons, run_append, first]
      exact ih (fun header' member => within header' (List.mem_cons_of_mem header member)) _

/-- **A well-formed frame runs through, back to a header start.** -/
theorem run_frame (started : AtHeaderStart g) (frame : Frame) (pos : Nat) :
    ∃ g', g.run pos frame.bytes = .ok g' ∧ AtHeaderStart g' := by
  have some_byte : frame.bytes ≠ [] := by
    rw [Frame.bytes, List.append_assoc]
    exact List.append_ne_nil_of_right_ne_nil _ (List.cons_ne_nil cr _)
  have anew : g.run pos frame.bytes = FramingGuard.new.run pos frame.bytes := by
    rcases started with rfl | rfl
    · rfl
    · exact run_spent rfl rfl some_byte pos
  have headers : FramingGuard.new.phase ≠ .body := by rintro ⟨⟩
  have within := frame.within
  rw [headerLine, List.length_append, List.length_append, List.length_cons, List.length_cons,
    length_of_isContentLength frame.length] at within
  have scanned : scanAll .new (frame.name ++ colon :: space :: frame.digits) =
      .ok ⟨some 14, .digits, decimal frame.digits, 16 + 0 + frame.digits.length, false⟩ :=
    (scanAll_length frame.length (Or.inl rfl) frame.some_digit frame.all).2
      ⟨by simp only [List.length_nil]; omega, frame.whole ▸ frame.capped, rfl⟩
  have plain : ∀ b ∈ frame.name ++ colon :: space :: frame.digits, b ≠ cr ∧ b ≠ lf :=
    fun b member => plain_length frame.length (Or.inl rfl) frame.all member
  have before := run_others headers rfl frame.before
    (fun header member => frame.within_others header (List.mem_append_left _ member)) pos
  have named (pos : Nat) : FramingGuard.new.run pos (headerLine frame.name frame.digits) =
      .ok ⟨.headers, .new, some (decimal frame.digits), 0⟩ := run_headerLine headers rfl plain scanned
    (Nat.ne_of_gt (show 0 < 16 + 0 + frame.digits.length by omega)) pos
  have behind (pos : Nat) := run_others (g := ⟨.headers, .new, some (decimal frame.digits), 0⟩) headers rfl
    frame.behind (fun header member => frame.within_others header (List.mem_append_right _ member)) pos
  have blank (pos : Nat) : FramingGuard.run ⟨.headers, .new, some (decimal frame.digits), 0⟩ pos [cr, lf] =
      .ok ⟨.body, .new, none, decimal frame.digits⟩ := rfl
  have front : ∃ pos', g.run pos frame.bytes =
      FramingGuard.run ⟨.body, .new, none, decimal frame.digits⟩ pos' frame.body := by
    rw [anew, Frame.bytes, List.append_assoc, List.append_assoc, List.append_assoc, run_then before,
      run_then (named _), run_then (behind _), run_then (blank _)]
    exact ⟨_, rfl⟩
  obtain ⟨pos', front⟩ := front
  rw [front, frame.whole]
  by_cases empty : frame.body = []
  · rw [empty]
    exact ⟨_, rfl, Or.inr rfl⟩
  · exact ⟨_, run_whole rfl empty rfl pos', Or.inl rfl⟩

/-- **Well-formed frames run through, one after another.** -/
theorem run_frames (started : AtHeaderStart g) (frames : List Frame) (pos : Nat) :
    ∃ g', g.run pos (frames.flatMap Frame.bytes) = .ok g' ∧ AtHeaderStart g' := by
  induction frames generalizing g pos with
  | nil => exact ⟨g, rfl, started⟩
  | cons frame frames ih =>
      obtain ⟨h, first, started⟩ := run_frame started frame pos
      obtain ⟨g', rest, ended⟩ := ih started (pos + frame.bytes.length)
      refine ⟨g', ?_, ended⟩
      rw [List.flatMap_cons, run_then first]
      exact rest

/-! ### Streams -/

/-- **The guard over a stream in reads.** -/
theorem framing_guard_reads (chunks : List (List UInt8)) :
    FramingGuard.new.scanReads 0 chunks = FramingGuard.new.run 0 chunks.flatten ∧
      (∀ frames : List Frame, chunks.flatten = frames.flatMap Frame.bytes →
        ∃ g, FramingGuard.new.scanReads 0 chunks = .ok g ∧ AtHeaderStart g) ∧
      ∀ g, FramingGuard.new.scanReads 0 chunks = .ok g →
        (∀ ns, AsyncReads chunks.flatten ns → ∀ n ∈ ns, n ≤ maxFrameLen) ∧
        (doubled (openLine .new [] chunks.flatten) = 0 →
          (openLine .new [] chunks.flatten).length ≤ maxHeaderLen + 1) := by
  have headers : FramingGuard.new.phase ≠ .body := by rintro ⟨⟩
  refine ⟨scanReads_eq .new 0 chunks, fun frames same => ?_, fun g ran => ⟨fun ns reads => ?_, fun single => ?_⟩⟩
  · obtain ⟨g, ran, started⟩ := run_frames (Or.inl rfl) frames 0
    rw [scanReads_eq, same]
    exact ⟨g, ran, started⟩
  · rw [scanReads_eq] at ran
    exact asyncReads_le reads (Or.inl rfl) ran
  · rw [scanReads_eq] at ran
    have bounded := (Open.run (Or.inr ⟨headers, Line.new⟩) ran).length_le
    rw [single] at bounded
    exact bounded

/-- Carriage returns are not counted. -/
theorem run_returns (headers : g.phase ≠ .body) (line : List UInt8) (n pos : Nat) :
    (∃ g', g.run pos (List.replicate n cr) = .ok g') ∧
      openLine g line (List.replicate n cr) = line ++ List.replicate n cr := by
  induction n generalizing g line pos with
  | zero => exact ⟨⟨g, rfl⟩, (List.append_nil line).symm⟩
  | succ n ih =>
      have returned : g.feed cr = .ok { g with scan := { g.scan with pendingCr := true } } := by
        rw [feed_headers headers]
        rfl
      have on_line : ¬ ((g.phase = .body ∧ 0 < g.bodyRemaining) ∨ cr = lf) := by
        rintro (⟨inBody, -⟩ | same)
        · exact headers inBody
        · exact absurd same (by decide)
      obtain ⟨ran, line_of⟩ := ih (g := { g with scan := { g.scan with pendingCr := true } }) headers
        (line ++ [cr]) (pos + 1)
      rw [List.replicate_succ, run, openLine, returned]
      refine ⟨ran, ?_⟩
      simp only [on_line, if_false, line_of, List.append_assoc, List.singleton_append]

/-- No constant bounds the header lines of the streams that have not failed. -/
theorem framing_guard_unbounded : ¬ ∃ over_by, ∀ chunks g, FramingGuard.new.scanReads 0 chunks = .ok g →
    (openLine .new [] chunks.flatten).length ≤ maxHeaderLen + over_by := by
  rintro ⟨over_by, bounded⟩
  have headers : FramingGuard.new.phase ≠ .body := by rintro ⟨⟩
  obtain ⟨⟨g, ran⟩, line⟩ := run_returns headers [] (maxHeaderLen + over_by + 1) 0
  have short := bounded [List.replicate (maxHeaderLen + over_by + 1) cr] g
    (by rw [scanReads_eq, List.flatten_singleton]; exact ran)
  rw [List.flatten_singleton, line, List.nil_append, List.length_replicate] at short
  omega

end Bemtvi.Lsp.Guard
