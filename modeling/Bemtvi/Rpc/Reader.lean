/-
Module: Bemtvi.Rpc.Reader
Purpose: `reader_task`: the frames of the buffered bytes are scanned, decoded and handed out one by
  one, and a rest longer than `MAX_FRAME` is refused.  A frame is handed out in every
  chunking exactly when it scans, decodes, and never leaves too long a rest on the way.
Trusted boundary: human-reviewed model of lib.rs:724-791; `decode` stands for rmpv's
  `read_value_with_max_depth(MAX_DEPTH)`; the receiving half of the channel is kept
Main exports: Refusal, scanDecoded, readerTask, Accepted, Deliverable, accepted_of_deliverable,
  readerTask_stream
-/
import Bemtvi.Rpc.ScanExact

namespace Bemtvi.Rpc

open Resumable (Outcome Verdict Lawful drain)
open Msgpack

/-- Why the reader tears the connection down. -/
inductive Refusal where
  /-- `inbound frame {why}`. -/
  | scan (stop : ScanStop)
  /-- `undecodable inbound frame`. -/
  | undecodable
  /-- `inbound frame grew past the {MAX_FRAME}-byte frame limit`. -/
  | grown
deriving Repr, DecidableEq

/-- The most bytes one `reader.read(&mut chunk)` delivers. -/
def chunkSize : Nat := 8192

section

variable (decode : List UInt8 → Option Value)

/-- One turn of the reader's inner loop: scan the next frame, then decode exactly its bytes. -/
def scanDecoded (buf : List UInt8) (scan : Option FrameScan) : Outcome FrameScan Refusal :=
  match scanFrame buf scan with
  | .complete n => if (decode (buf.take n)).isSome then .complete n else .reject .undecodable
  | .incomplete st => .incomplete st
  | .reject stop => .reject (.scan stop)

/-- `reader_task` over a sequence of reads: drain what is buffered, then refuse a long rest. -/
def readerTask (chunks : List (List UInt8)) : List (List UInt8) × Verdict UInt8 FrameScan Refusal :=
  Resumable.readBounded maxFrame .grown (scanDecoded decode) chunks

/-- What the socket can deliver: never an empty read before the end, never more than a chunk. -/
def Reads (chunks : List (List UInt8)) : Prop :=
  ∀ chunk ∈ chunks, chunk ≠ [] ∧ chunk.length ≤ chunkSize

/-- The reader hands `bytes` out as its first frame, however they are cut into reads and
whatever follows them. -/
def Accepted (bytes : List UInt8) : Prop :=
  ∀ chunks later, Reads chunks → chunks.flatten = bytes ++ later →
    ∃ more, (readerTask decode chunks).1 = bytes :: more

/-- An encoding within every budget, which the decoder reads. -/
structure Deliverable (bytes : List UInt8) : Prop where
  encodes : ∃ value, Encodes value bytes ∧ Within value
  decodes : (decode bytes).isSome

end

variable {decode : List UInt8 → Option Value}

/-! ### The decoding scanner is lawful -/

variable {buf bytes : List UInt8} {frames : List (List UInt8)}

theorem scanDecoded_complete {scan : Option FrameScan} {n : Nat}
    (done : scanDecoded decode buf scan = .complete n) :
    scanFrame buf scan = .complete n ∧ (decode (buf.take n)).isSome := by
  unfold scanDecoded at done
  split at done
  · next length scanned =>
      split at done
      · next decoded =>
          cases done
          exact ⟨scanned, decoded⟩
      · cases done
  · cases done
  · cases done

theorem scanDecoded_lawful : Lawful (scanDecoded decode) FrameScan.Stored where
  complete_bounds valid done :=
    scanFrame_lawful.complete_bounds valid (scanDecoded_complete done).1
  complete_append {buffer state length} later valid done := by
    rcases scanDecoded_complete done with ⟨scanned, decoded⟩
    have bounds := scanFrame_lawful.complete_bounds valid scanned
    rw [scanDecoded, scanFrame_lawful.complete_append later valid scanned]
    simp only [List.take_append_of_le_length bounds.2, decoded, if_true]
  reject_append {buffer state why} later valid rejected := by
    unfold scanDecoded at rejected ⊢
    split at rejected
    · next length scanned =>
        have bounds := scanFrame_lawful.complete_bounds valid scanned
        rw [scanFrame_lawful.complete_append later valid scanned]
        simp only [List.take_append_of_le_length bounds.2]
        exact rejected
    · cases rejected
    · next stop scanned =>
        rw [scanFrame_lawful.reject_append later valid scanned]
        exact rejected
  incomplete_valid {buffer state walk} valid stopped := by
    unfold scanDecoded at stopped
    split at stopped
    · split at stopped <;> cases stopped
    · next st scanned =>
        cases stopped
        exact scanFrame_lawful.incomplete_valid valid scanned
    · cases stopped
  incomplete_resume {buffer state walk} later valid stopped := by
    unfold scanDecoded at stopped
    split at stopped
    · split at stopped <;> cases stopped
    · next st scanned =>
        cases stopped
        unfold scanDecoded
        rw [scanFrame_lawful.incomplete_resume later valid scanned]
    · cases stopped

/-! ### A deliverable frame -/

/-- A value cannot both keep and break a budget. -/
theorem Within.not_breaks {value : Value} {why : Reject} (within_budgets : Within value) :
    ¬ Breaks why value := by
  intro breaks
  cases why with
  | values => exact Nat.not_lt.2 within_budgets.counted breaks
  | depth => exact Nat.not_lt.2 within_budgets.shallow breaks
  | payload => exact Nat.not_lt.2 within_budgets.fits breaks

theorem within_nil : Within .nil :=
  ⟨by decide, by decide, by decide⟩

theorem Deliverable.pos (deliverable : Deliverable decode bytes) : 0 < bytes.length := by
  rcases deliverable.encodes with ⟨value, enc, -⟩
  exact enc.length_pos

/-- Once it has arrived, a deliverable frame completes. -/
theorem Deliverable.complete (deliverable : Deliverable decode bytes) (arrived : bytes <+: buf) :
    scanDecoded decode buf none = .complete bytes.length := by
  rcases deliverable.encodes with ⟨value, enc, within_budgets⟩
  rcases scanFrame_compatible enc (Or.inl arrived) with ⟨done, -, -⟩ | ⟨_, -, short⟩ |
    ⟨why, -, breaks⟩
  · rw [scanDecoded, done]
    simp only [← List.prefix_iff_eq_take.1 arrived, deliverable.decodes, if_true]
  · exact absurd arrived short
  · exact absurd breaks within_budgets.not_breaks

/-- Until it has arrived, the reader waits for the rest of it. -/
theorem Deliverable.incomplete (deliverable : Deliverable decode bytes) (pending : buf <+: bytes)
    (short : buf.length < bytes.length) : ∃ st, scanDecoded decode buf none = .incomplete st := by
  rcases deliverable.encodes with ⟨value, enc, within_budgets⟩
  rcases scanFrame_compatible enc (Or.inr pending) with ⟨-, arrived, -⟩ | ⟨st, stopped, -⟩ |
    ⟨why, -, breaks⟩
  · exact absurd arrived.length_le (Nat.not_le.2 short)
  · exact ⟨st, by rw [scanDecoded, stopped]⟩
  · exact absurd breaks within_budgets.not_breaks

theorem Deliverable.drain_pending (deliverable : Deliverable decode bytes)
    (pending : buf <+: bytes) (short : buf.length < bytes.length) :
    ∃ st, drain (scanDecoded decode) buf none = ([], .waiting buf (some st)) := by
  rcases deliverable.incomplete pending short with ⟨st, stopped⟩
  exact ⟨st, Resumable.drain_incomplete stopped⟩

theorem Deliverable.drain_arrived (deliverable : Deliverable decode bytes) (later : List UInt8) :
    drain (scanDecoded decode) (bytes ++ later) none =
      (bytes :: (drain (scanDecoded decode) later none).1,
        (drain (scanDecoded decode) later none).2) := by
  have done := deliverable.complete (List.prefix_append bytes later)
  have bounds : 0 < bytes.length ∧ bytes.length ≤ (bytes ++ later).length :=
    ⟨deliverable.pos, by rw [List.length_append]; exact Nat.le_add_right _ _⟩
  rw [Resumable.drain_complete done bounds, List.take_left, List.drop_left]

/-- **A deliverable frame is accepted** as long as no proper prefix of it is over `MAX_FRAME`. -/
theorem accepted_of_deliverable (deliverable : Deliverable decode bytes)
    (fits : bytes.length ≤ maxFrame + 1) : Accepted decode bytes := by
  -- Either the frame is still pending and the bound has not fired, or it is already out.
  have progress : ∀ chunks : List (List UInt8),
      (chunks.flatten <+: bytes → chunks.flatten.length < bytes.length →
        readerTask decode chunks = drain (scanDecoded decode) chunks.flatten none) ∧
      (bytes <+: chunks.flatten → [bytes] <+: (readerTask decode chunks).1) := by
    intro chunks
    induction chunks using List.reverseRecOn with
    | nil =>
        constructor
        · intro pending short
          rcases deliverable.drain_pending pending short with ⟨st, waiting⟩
          apply Resumable.bound_eq_self
          intro rest walk here
          rw [← List.flatten_nil, waiting] at here
          cases here
          exact Nat.zero_le _
        · intro arrived
          exact absurd arrived.length_le (Nat.not_le.2 deliverable.pos)
    | append_singleton chunks chunk ih =>
        have step : readerTask decode (chunks ++ [chunk]) =
            Resumable.bound maxFrame .grown
              (Resumable.feed (scanDecoded decode) (readerTask decode chunks) chunk) :=
          Resumable.readBounded_append _ _ _ _
        rw [List.flatten_append, List.flatten_singleton]
        constructor
        · intro pending short
          have before : chunks.flatten <+: bytes := (List.prefix_append _ _).trans pending
          have before_short : chunks.flatten.length < bytes.length := by
            rw [List.length_append] at short
            omega
          rw [step, ih.1 before before_short,
            ← Resumable.drain_append scanDecoded_lawful _ _ none (Resumable.validStore_none _)]
          rcases deliverable.drain_pending pending short with ⟨st, waiting⟩
          apply Resumable.bound_eq_self
          intro rest walk here
          rw [waiting] at here
          cases here
          exact Nat.le_of_lt_succ (Nat.lt_of_lt_of_le short fits)
        · intro arrived
          by_cases already : bytes <+: chunks.flatten
          · rw [step, Resumable.bound_frames]
            exact (ih.2 already).trans (Resumable.feed_frames _ _)
          · have before : chunks.flatten <+: bytes ∧ chunks.flatten.length < bytes.length := by
              rcases Nat.lt_or_ge chunks.flatten.length bytes.length with short | long
              · exact ⟨List.prefix_of_prefix_length_le (List.prefix_append _ chunk) arrived
                  (Nat.le_of_lt short), short⟩
              · exact absurd (List.prefix_of_prefix_length_le arrived (List.prefix_append _ chunk)
                  long) already
            rw [step, Resumable.bound_frames, ih.1 before.1 before.2,
              ← Resumable.drain_append scanDecoded_lawful _ _ none (Resumable.validStore_none _)]
            rcases arrived with ⟨later, whole⟩
            rw [← whole, deliverable.drain_arrived later]
            exact List.cons_prefix_cons.2 ⟨rfl, List.nil_prefix⟩
  intro chunks later _ whole
  rcases (progress chunks).2 (whole ▸ List.prefix_append bytes later) with ⟨more, frames⟩
  exact ⟨more, frames.symm⟩

/-- The reader before its first byte. -/
theorem drain_nil (decode : List UInt8 → Option Value) :
    ∃ st, drain (scanDecoded decode) [] none = ([], .waiting [] (some st)) := by
  have anything : Encodes .nil [0xc0] := .nil
  rcases scanFrame_compatible anything (Or.inr List.nil_prefix : Compatible [0xc0] []) with
    ⟨-, arrived, -⟩ | ⟨st, stopped, -⟩ | ⟨why, -, breaks⟩
  · exact absurd arrived.length_le (by decide)
  · exact ⟨st, Resumable.drain_incomplete (by rw [scanDecoded, stopped])⟩
  · exact absurd breaks within_nil.not_breaks

/-- Draining any front of a stream of deliverable frames leaves the reader waiting on less than
one frame. -/
theorem drain_front
    (deliverable : ∀ frame ∈ frames, Deliverable decode frame ∧ frame.length ≤ maxFrame + 1)
    {front : List UInt8} (here : front <+: frames.flatten) :
    ∃ rest st, (drain (scanDecoded decode) front none).2 = .waiting rest (some st) ∧
      rest.length ≤ maxFrame ∧
      (front = frames.flatten → (drain (scanDecoded decode) front none).1 = frames) := by
  induction frames generalizing front with
  | nil =>
      rw [List.flatten_nil, List.prefix_nil] at here
      subst here
      rcases drain_nil decode with ⟨st, waiting⟩
      rw [waiting]
      exact ⟨[], st, rfl, Nat.zero_le _, fun _ => rfl⟩
  | cons frame frames ih =>
      rcases deliverable frame List.mem_cons_self with ⟨here_deliverable, fits⟩
      rw [List.flatten_cons] at here ⊢
      rcases Nat.lt_or_ge front.length frame.length with short | long
      · have pending : front <+: frame :=
          List.prefix_of_prefix_length_le here (List.prefix_append _ _) (Nat.le_of_lt short)
        rcases here_deliverable.drain_pending pending short with ⟨st, waiting⟩
        rw [waiting]
        refine ⟨front, st, rfl, Nat.le_of_lt_succ (Nat.lt_of_lt_of_le short fits), ?_⟩
        intro whole
        rw [whole, List.length_append] at short
        omega
      · rcases List.prefix_of_prefix_length_le (List.prefix_append frame _) here long with
          ⟨later, rfl⟩
        rw [List.prefix_append_right_inj] at here
        rw [here_deliverable.drain_arrived later]
        rcases ih (fun other member => deliverable other (List.mem_cons_of_mem _ member)) here with
          ⟨rest, st, waiting, bounded, all⟩
        refine ⟨rest, st, waiting, bounded, ?_⟩
        intro whole
        rw [all (List.append_cancel_left whole)]

/-- **A stream of deliverable frames.**  In every chunking of any front of the stream, the reader
is left waiting, never stopped; and the whole stream hands out exactly the frames sent. -/
theorem readerTask_stream
    (deliverable : ∀ frame ∈ frames, Deliverable decode frame ∧ frame.length ≤ maxFrame + 1)
    {chunks : List (List UInt8)} (sent : chunks.flatten <+: frames.flatten) :
    (∃ rest st, (readerTask decode chunks).2 = .waiting rest st) ∧
      (chunks.flatten = frames.flatten → (readerTask decode chunks).1 = frames) := by
  have run : readerTask decode chunks = drain (scanDecoded decode) chunks.flatten none := by
    apply Resumable.readBounded_eq_drain maxFrame .grown scanDecoded_lawful
    intro front rest walk here waiting
    rcases drain_front deliverable (here.trans sent) with ⟨rest', st, waiting', bounded, -⟩
    cases waiting.symm.trans waiting'
    exact bounded
  rcases drain_front deliverable sent with ⟨rest, st, waiting, -, all⟩
  rw [run]
  exact ⟨⟨rest, some st, waiting⟩, all⟩

/-! ### What the reader turns away -/

/-- The stream cut into single bytes. -/
def bytewise (bytes : List UInt8) : List (List UInt8) := bytes.map ([·])

theorem bytewise_flatten (bytes : List UInt8) : (bytewise bytes).flatten = bytes := by
  induction bytes with
  | nil => rfl
  | cons byte bytes ih => simpa [bytewise] using ih

theorem bytewise_reads (bytes : List UInt8) : Reads (bytewise bytes) := by
  intro chunk member
  rcases List.mem_map.1 member with ⟨byte, -, rfl⟩
  exact ⟨List.cons_ne_nil byte [], Nat.succ_le_of_lt (by decide : 0 < chunkSize)⟩

/-- An accepted frame that is an encoding is within the budgets. -/
theorem Accepted.within {value : Value} (accepted : Accepted decode bytes)
    (enc : Encodes value bytes) : Within value := by
  rcases accepted (bytewise bytes) [] (bytewise_reads bytes)
    (by rw [bytewise_flatten, List.append_nil]) with ⟨more, frames⟩
  have handed : bytes ∈ (drain (scanDecoded decode) bytes none).1 := by
    have same := Resumable.readBounded_eq_or_stopped maxFrame .grown
      (scanDecoded_lawful : Lawful (scanDecoded decode) FrameScan.Stored) (bytewise bytes)
    rw [bytewise_flatten] at same
    have member : bytes ∈ (readerTask decode (bytewise bytes)).1 := by
      rw [frames]
      exact List.mem_cons_self
    rcases same with same | ⟨-, front⟩
    · rw [← same]
      exact member
    · exact front.subset member
  rcases Resumable.frames_complete scanDecoded_lawful _ _ handed with ⟨later, done⟩
  have scanned := (scanDecoded_complete done).1
  rcases scanFrame_compatible enc (Or.inl (List.prefix_append bytes later)) with
    ⟨-, -, within_budgets⟩ | ⟨_, here, -⟩ | ⟨_, here, -⟩
  · exact within_budgets
  · cases scanned.symm.trans here
  · cases scanned.symm.trans here

/-- An accepted frame leaves no proper prefix over `MAX_FRAME`. -/
theorem Accepted.length_le (accepted : Accepted decode bytes) : bytes.length ≤ maxFrame + 1 := by
  by_contra long
  have long : maxFrame + 1 < bytes.length := Nat.not_le.1 long
  -- Deliver one byte more than `MAX_FRAME`, then the rest.
  have front_size : (bytes.take (maxFrame + 1)).length = maxFrame + 1 := by
    rw [List.length_take]
    omega
  have all_reads : bytewise bytes =
      bytewise (bytes.take (maxFrame + 1)) ++ bytewise (bytes.drop (maxFrame + 1)) := by
    simp only [bytewise]
    rw [← List.map_append, List.take_append_drop]
  rcases accepted (bytewise bytes) [] (bytewise_reads bytes)
    (by rw [bytewise_flatten, List.append_nil]) with ⟨more, frames⟩
  have early : (readerTask decode (bytewise (bytes.take (maxFrame + 1)))).1 <+: bytes :: more := by
    rw [← frames, all_reads]
    exact Resumable.readBounded_frames _ _ _ _
  have same := Resumable.readBounded_eq_or_stopped maxFrame .grown
    (scanDecoded_lawful : Lawful (scanDecoded decode) FrameScan.Stored) (bytewise (bytes.take (maxFrame + 1)))
  rw [bytewise_flatten] at same
  -- So early nothing as long as the frame can have been handed out.
  have none_yet : (readerTask decode (bytewise (bytes.take (maxFrame + 1)))).1 = [] := by
    rcases List.prefix_cons_iff.1 early with empty | ⟨rest, handed, -⟩
    · exact empty
    · have drained : bytes ∈ (drain (scanDecoded decode) (bytes.take (maxFrame + 1)) none).1 := by
        have member : bytes ∈ (readerTask decode (bytewise (bytes.take (maxFrame + 1)))).1 := by
          rw [handed]
          exact List.mem_cons_self
        rcases same with same | ⟨-, front⟩
        · rw [← same]
          exact member
        · exact front.subset member
      have short := Resumable.frames_length_le _ _ _ drained
      omega
  have halted : ∀ rest walk,
      (readerTask decode (bytewise (bytes.take (maxFrame + 1)))).2 ≠ .waiting rest walk := by
    intro rest walk waiting
    rcases same with same | ⟨stopped, -⟩
    · have pair : drain (scanDecoded decode) (bytes.take (maxFrame + 1)) none =
          ([], .waiting rest walk) := by
        rw [← same]
        exact Prod.ext none_yet waiting
      have whole := Resumable.drain_waiting_nil pair
      have bounded := Resumable.readBounded_waiting maxFrame Refusal.grown waiting
      rw [whole] at bounded
      omega
    · cases stopped.symm.trans waiting
  have over_early := Resumable.readBounded_halted maxFrame Refusal.grown
    (bytewise (bytes.drop (maxFrame + 1))) halted
  rw [← all_reads] at over_early
  have final : (readerTask decode (bytewise bytes)).1 = [] :=
    (congrArg Prod.fst over_early).trans none_yet
  rw [final] at frames
  cases frames

end Bemtvi.Rpc
