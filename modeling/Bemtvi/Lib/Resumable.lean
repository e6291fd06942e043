/-
Module: Bemtvi.Lib.Resumable
Purpose: A stream reader that keeps a resumable scan across reads.  The reader appends every
  chunk to a buffer, asks a scanner for the extent of the next frame, hands the frame out,
  and drops it from the buffer; a scan that runs out of bytes stores its walk and is resumed
  by the next read.  Four laws of the scanner make the outcome independent of how the stream
  was cut into chunks.
Trusted boundary: none
Main exports: Outcome, Verdict, drain, feed, readAll, Lawful, drain_append, readAll_eq_drain
-/
import Mathlib

namespace Bemtvi.Resumable

variable {α σ ρ : Type}

/-- What one scan of the buffered items reports. -/
inductive Outcome (σ ρ : Type) where
  | complete (length : Nat)
  | incomplete (state : σ)
  | reject (why : ρ)
deriving Repr, DecidableEq

/-- Where a reader stands: waiting for more input with an undrained rest and a stored scan, or
stopped by a rejection.  `spinning` is the reader that would hand out empty frames for ever. -/
inductive Verdict (α σ ρ : Type) where
  | waiting (rest : List α) (state : Option σ)
  | stopped (why : ρ)
  | spinning
deriving Repr, DecidableEq

/-- Hand out every complete frame at the front of `buffer`. -/
def drain (scan : List α → Option σ → Outcome σ ρ) (buffer : List α) (state : Option σ) :
    List (List α) × Verdict α σ ρ :=
  match scan buffer state with
  | .complete length =>
      if _h : 0 < length ∧ length ≤ buffer.length then
        let later := drain scan (buffer.drop length) none
        (buffer.take length :: later.1, later.2)
      else ([], .spinning)
  | .incomplete walk => ([], .waiting buffer (some walk))
  | .reject why => ([], .stopped why)
termination_by buffer.length
decreasing_by simp only [List.length_drop]; omega

/-- One read: append the chunk to the undrained rest and drain again.  A stopped reader has
returned, so nothing it is offered changes it. -/
def feed (scan : List α → Option σ → Outcome σ ρ)
    (reader : List (List α) × Verdict α σ ρ) (chunk : List α) :
    List (List α) × Verdict α σ ρ :=
  match reader.2 with
  | .waiting rest state =>
      let later := drain scan (rest ++ chunk) state
      (reader.1 ++ later.1, later.2)
  | _ => reader

/-- The whole reader: drain the empty buffer once, then read chunk after chunk. -/
def readAll (scan : List α → Option σ → Outcome σ ρ) (chunks : List (List α)) :
    List (List α) × Verdict α σ ρ :=
  chunks.foldl (feed scan) (drain scan [] none)

/-- Every stored walk satisfies `Valid`. -/
def ValidStore (Valid : σ → Prop) (state : Option σ) : Prop :=
  ∀ walk ∈ state, Valid walk

@[simp] theorem validStore_none (Valid : σ → Prop) : ValidStore Valid none := by
  simp [ValidStore]

/-- The laws of a resumable scanner.  A verdict on a buffer survives any extension of it, and
resuming a stored walk on a longer buffer answers what the interrupted scan would have
answered there. -/
structure Lawful (scan : List α → Option σ → Outcome σ ρ) (Valid : σ → Prop) : Prop where
  complete_bounds : ∀ {buffer state length}, ValidStore Valid state →
    scan buffer state = .complete length → 0 < length ∧ length ≤ buffer.length
  complete_append : ∀ {buffer state length} (later : List α), ValidStore Valid state →
    scan buffer state = .complete length → scan (buffer ++ later) state = .complete length
  reject_append : ∀ {buffer state why} (later : List α), ValidStore Valid state →
    scan buffer state = .reject why → scan (buffer ++ later) state = .reject why
  incomplete_valid : ∀ {buffer state walk}, ValidStore Valid state →
    scan buffer state = .incomplete walk → Valid walk
  incomplete_resume : ∀ {buffer state walk} (later : List α), ValidStore Valid state →
    scan buffer state = .incomplete walk →
      scan (buffer ++ later) (some walk) = scan (buffer ++ later) state

/-! ### Unfolding lemmas, one per scan outcome -/

variable {scan : List α → Option σ → Outcome σ ρ} {Valid : σ → Prop}

variable {buffer : List α} {state : Option σ}

theorem drain_incomplete {walk : σ} (outcome : scan buffer state = .incomplete walk) :
    drain scan buffer state = ([], .waiting buffer (some walk)) := by
  rw [drain, outcome]

theorem drain_reject {why : ρ} (outcome : scan buffer state = .reject why) :
    drain scan buffer state = ([], .stopped why) := by
  rw [drain, outcome]

theorem drain_complete {length : Nat} (outcome : scan buffer state = .complete length)
    (bounds : 0 < length ∧ length ≤ buffer.length) : drain scan buffer state =
      (buffer.take length :: (drain scan (buffer.drop length) none).1,
        (drain scan (buffer.drop length) none).2) := by
  rw [drain, outcome]
  simp only [bounds, and_self, dif_pos]

@[simp] theorem feed_stopped (frames : List (List α)) (why : ρ) (chunk : List α) :
    feed scan (frames, .stopped why) chunk = (frames, .stopped why) := rfl

@[simp] theorem feed_waiting (frames : List (List α)) (rest : List α) (state : Option σ)
    (chunk : List α) :
    feed scan (frames, .waiting rest state) chunk =
      (frames ++ (drain scan (rest ++ chunk) state).1,
        (drain scan (rest ++ chunk) state).2) := rfl

/-- Frames already handed out only prefix what the later reads hand out. -/
theorem feed_cons (frame : List α) (reader : List (List α) × Verdict α σ ρ) (chunk : List α) :
    feed scan (frame :: reader.1, reader.2) chunk =
      (frame :: (feed scan reader chunk).1, (feed scan reader chunk).2) := by
  obtain ⟨frames, verdict⟩ := reader
  cases verdict <;> simp [feed]

/-! ### Independence of the chunking -/

/-- Draining a longer buffer is draining the front, then feeding the rest. -/
theorem drain_append (lawful : Lawful scan Valid) (buffer later : List α) (state : Option σ)
    (valid : ValidStore Valid state) :
    drain scan (buffer ++ later) state = feed scan (drain scan buffer state) later := by
  induction size : buffer.length using Nat.strongRecOn generalizing buffer state with
  | _ total ih =>
    cases outcome : scan buffer state with
    | complete length =>
        have bounds := lawful.complete_bounds valid outcome
        have bounds' : 0 < length ∧ length ≤ (buffer ++ later).length := by
          rw [List.length_append]; omega
        have shorter : (buffer.drop length).length < total := by
          rw [List.length_drop]; omega
        rw [drain_complete (lawful.complete_append later valid outcome) bounds',
          drain_complete outcome bounds, feed_cons, List.take_append_of_le_length bounds.2,
          List.drop_append_of_le_length bounds.2,
          ih _ shorter (buffer.drop length) none (validStore_none Valid) rfl]
    | incomplete walk =>
        rw [drain_incomplete outcome, feed_waiting, List.nil_append]
        rw [drain, drain, lawful.incomplete_resume later valid outcome]
    | reject why =>
        rw [drain_reject outcome, feed_stopped,
          drain_reject (lawful.reject_append later valid outcome)]

/-- **Chunk independence.**  However a stream is cut into reads, the reader hands out the
frames and ends in the verdict of draining the whole stream at once. -/
theorem readAll_eq_drain (lawful : Lawful scan Valid) (chunks : List (List α)) :
    readAll scan chunks = drain scan chunks.flatten none := by
  have general : ∀ stream : List α,
      chunks.foldl (feed scan) (drain scan stream none) =
        drain scan (stream ++ chunks.flatten) none := by
    induction chunks with
    | nil => intro stream; simp
    | cons chunk chunks ih =>
        intro stream
        rw [List.foldl_cons, ← drain_append lawful stream chunk none (validStore_none Valid), ih,
          List.flatten_cons, List.append_assoc]
  simpa [readAll] using general []

/-! ### What a drained buffer says about its frames -/

/-- Every frame handed out is a complete scan of fresh state over its own bytes and some
continuation of them. -/
theorem frames_complete (lawful : Lawful scan Valid) (buffer : List α) (frame : List α)
    (member : frame ∈ (drain scan buffer none).1) :
    ∃ later, scan (frame ++ later) none = .complete frame.length := by
  induction size : buffer.length using Nat.strongRecOn generalizing buffer with
  | _ total ih =>
    cases outcome : scan buffer none with
    | complete length =>
        have bounds := lawful.complete_bounds (validStore_none Valid) outcome
        rw [drain_complete outcome bounds] at member
        rcases List.mem_cons.1 member with rfl | member
        · refine ⟨buffer.drop length, ?_⟩
          rw [List.take_append_drop, List.length_take, Nat.min_eq_left bounds.2, outcome]
        · refine ih _ ?_ (buffer.drop length) member rfl
          rw [List.length_drop]; omega
    | incomplete walk => simp [drain_incomplete outcome] at member
    | reject why => simp [drain_reject outcome] at member

/-- The frames handed out and some rest are the whole buffer, and the verdict is what a scan of
that rest with fresh state says. -/
theorem drain_rest (lawful : Lawful scan Valid) (buffer : List α) :
    ∃ rest, (drain scan buffer none).1.flatten ++ rest = buffer ∧
      ((∃ walk, (drain scan buffer none).2 = .waiting rest (some walk) ∧
        scan rest none = .incomplete walk) ∨
      ∃ why, (drain scan buffer none).2 = .stopped why ∧ scan rest none = .reject why) := by
  induction size : buffer.length using Nat.strongRecOn generalizing buffer with
  | _ total ih =>
    cases outcome : scan buffer none with
    | complete length =>
        have bounds := lawful.complete_bounds (validStore_none Valid) outcome
        have shorter : (buffer.drop length).length < total := by
          rw [List.length_drop]; omega
        obtain ⟨rest, split, verdict⟩ := ih _ shorter (buffer.drop length) rfl
        rw [drain_complete outcome bounds]
        refine ⟨rest, ?_, verdict⟩
        rw [List.flatten_cons, List.append_assoc, split, List.take_append_drop]
    | incomplete walk =>
        rw [drain_incomplete outcome]
        exact ⟨buffer, rfl, Or.inl ⟨walk, rfl, outcome⟩⟩
    | reject why =>
        rw [drain_reject outcome]
        exact ⟨buffer, rfl, Or.inr ⟨why, rfl, outcome⟩⟩

/-- A reader that is waiting with no frame handed out has consumed nothing. -/
theorem drain_waiting_nil {rest : List α} {walk : Option σ}
    (waiting : drain scan buffer state = ([], .waiting rest walk)) : rest = buffer := by
  cases outcome : scan buffer state with
  | complete length =>
      rw [drain, outcome] at waiting
      simp only at waiting
      split at waiting <;> simp at waiting
  | incomplete stored =>
      rw [drain_incomplete outcome] at waiting
      simp only [Prod.mk.injEq, true_and, Verdict.waiting.injEq] at waiting
      exact waiting.1.symm
  | reject why =>
      rw [drain_reject outcome] at waiting
      simp at waiting

/-- Frames are cut out of the buffer. -/
theorem frames_length_le (buffer : List α) (state : Option σ) (frame : List α)
    (member : frame ∈ (drain scan buffer state).1) : frame.length ≤ buffer.length := by
  induction size : buffer.length using Nat.strongRecOn generalizing buffer state with
  | _ total ih =>
    cases outcome : scan buffer state with
    | complete length =>
        by_cases bounds : 0 < length ∧ length ≤ buffer.length
        · rw [drain_complete outcome bounds] at member
          have shorter : (buffer.drop length).length < total := by
            rw [List.length_drop]; omega
          rcases List.mem_cons.1 member with rfl | later
          · rw [List.length_take]
            omega
          · exact (ih _ shorter (buffer.drop length) none later rfl).trans (Nat.le_of_lt shorter)
        · rw [drain, outcome] at member
          simp [bounds] at member
    | incomplete walk => simp [drain_incomplete outcome] at member
    | reject why => simp [drain_reject outcome] at member

/-! ### A bounded reader

A reader that refuses to wait on more than `limit` undrained items. -/

section Bounded

variable (limit : Nat) (grown : ρ)

/-- Refuse a reader left waiting on too long a rest. -/
def bound (reader : List (List α) × Verdict α σ ρ) : List (List α) × Verdict α σ ρ :=
  match reader.2 with
  | .waiting rest _ => if rest.length > limit then (reader.1, .stopped grown) else reader
  | _ => reader

/-- The bounded reader over a sequence of reads. -/
def readBounded (scan : List α → Option σ → Outcome σ ρ) (chunks : List (List α)) :
    List (List α) × Verdict α σ ρ :=
  chunks.foldl (fun reader chunk => bound limit grown (feed scan reader chunk))
    (bound limit grown (drain scan [] none))

@[simp] theorem bound_frames (reader : List (List α) × Verdict α σ ρ) :
    (bound limit grown reader).1 = reader.1 := by
  unfold bound
  split
  · split <;> rfl
  · rfl

/-- The bound changes nothing while the rest is short. -/
theorem bound_eq_self {reader : List (List α) × Verdict α σ ρ}
    (short : ∀ rest walk, reader.2 = .waiting rest walk → rest.length ≤ limit) :
    bound limit grown reader = reader := by
  unfold bound
  split
  · next rest walk waiting => rw [if_neg (Nat.not_lt.2 (short rest walk waiting))]
  · rfl

theorem readBounded_append (chunks : List (List α)) (chunk : List α) :
    readBounded limit grown scan (chunks ++ [chunk]) =
      bound limit grown (feed scan (readBounded limit grown scan chunks) chunk) := by
  simp only [readBounded, List.foldl_append, List.foldl_cons, List.foldl_nil]

/-- Feeding only adds frames. -/
theorem feed_frames (reader : List (List α) × Verdict α σ ρ) (chunk : List α) :
    reader.1 <+: (feed scan reader chunk).1 := by
  unfold feed
  split
  · exact List.prefix_append _ _
  · exact List.prefix_rfl

/-- Reading on only adds frames. -/
theorem readBounded_frames (chunks later : List (List α)) :
    (readBounded limit grown scan chunks).1 <+:
      (readBounded limit grown scan (chunks ++ later)).1 := by
  induction later using List.reverseRecOn with
  | nil =>
      rw [List.append_nil]
  | append_singleton later chunk ih =>
      rw [← List.append_assoc, readBounded_append, bound_frames]
      exact ih.trans (feed_frames _ _)

variable {chunks : List (List α)}

/-- What the bounded reader still waits on is within the bound. -/
theorem readBounded_waiting {rest : List α} {walk : Option σ}
    (waiting : (readBounded limit grown scan chunks).2 = .waiting rest walk) :
    rest.length ≤ limit := by
  have bounded : ∀ reader : List (List α) × Verdict α σ ρ,
      (bound limit grown reader).2 = .waiting rest walk → rest.length ≤ limit := by
    intro reader here
    unfold bound at here
    split at here
    · next rest' walk' same =>
        split at here
        · cases here
        · next short =>
            rw [same] at here
            cases here
            exact Nat.not_lt.1 short
    · next other =>
        exact absurd here (other rest walk)
  cases chunks using List.reverseRecOn with
  | nil => exact bounded _ waiting
  | append_singleton chunks chunk =>
      rw [readBounded_append] at waiting
      exact bounded _ waiting

/-- A reader that is not waiting has returned: no later read changes it. -/
theorem readBounded_halted (later : List (List α))
    (halted : ∀ rest walk, (readBounded limit grown scan chunks).2 ≠ .waiting rest walk) :
    readBounded limit grown scan (chunks ++ later) = readBounded limit grown scan chunks := by
  have feed_same : ∀ chunk, feed scan (readBounded limit grown scan chunks) chunk =
      readBounded limit grown scan chunks := by
    intro chunk
    unfold feed
    split
    · next rest walk waiting => exact absurd waiting (halted rest walk)
    · rfl
  have bound_same : bound limit grown (readBounded limit grown scan chunks) =
      readBounded limit grown scan chunks :=
    bound_eq_self limit grown fun rest walk waiting => absurd waiting (halted rest walk)
  induction later using List.reverseRecOn with
  | nil => rw [List.append_nil]
  | append_singleton later chunk ih =>
      rw [← List.append_assoc, readBounded_append, ih, feed_same, bound_same]

/-- Either the bounded reader stands where the unbounded one does, or it has been stopped. -/
theorem readBounded_eq_or_stopped (lawful : Lawful scan Valid) (chunks : List (List α)) :
    readBounded limit grown scan chunks = drain scan chunks.flatten none ∨
      ((readBounded limit grown scan chunks).2 = .stopped grown ∧
        (readBounded limit grown scan chunks).1 <+: (drain scan chunks.flatten none).1) := by
  have bounded : ∀ reader : List (List α) × Verdict α σ ρ,
      bound limit grown reader = reader ∨ (bound limit grown reader).2 = .stopped grown := by
    intro reader
    unfold bound
    split
    · split
      · exact Or.inr rfl
      · exact Or.inl rfl
    · exact Or.inl rfl
  induction chunks using List.reverseRecOn with
  | nil =>
      rcases bounded (drain scan [] none) with same | stopped
      · exact Or.inl same
      · exact Or.inr ⟨stopped, by rw [readBounded, List.foldl_nil, bound_frames]; rfl⟩
  | append_singleton chunks chunk ih =>
      rw [readBounded_append, List.flatten_append, List.flatten_singleton,
        drain_append lawful _ _ none (validStore_none Valid)]
      rcases ih with same | ⟨stopped, frames⟩
      · rw [same]
        rcases bounded (feed scan (drain scan chunks.flatten none) chunk) with same' | stopped'
        · exact Or.inl same'
        · exact Or.inr ⟨stopped', by rw [bound_frames]⟩
      · refine Or.inr ?_
        have halted : feed scan (readBounded limit grown scan chunks) chunk =
            readBounded limit grown scan chunks := by
          rw [feed, stopped]
        have still : bound limit grown (readBounded limit grown scan chunks) =
            readBounded limit grown scan chunks := by
          rw [bound, stopped]
        rw [halted, still]
        exact ⟨stopped, frames.trans (feed_frames _ _)⟩

/-- **The bound never fires** on a stream none of whose prefixes leaves a long rest. -/
theorem readBounded_eq_drain (lawful : Lawful scan Valid) (chunks : List (List α))
    (short : ∀ front rest walk, front <+: chunks.flatten →
      (drain scan front none).2 = .waiting rest walk → rest.length ≤ limit) :
    readBounded limit grown scan chunks = drain scan chunks.flatten none := by
  induction chunks using List.reverseRecOn with
  | nil =>
      exact bound_eq_self limit grown (fun rest walk => short [] rest walk List.prefix_rfl)
  | append_singleton chunks chunk ih =>
      rw [List.flatten_append, List.flatten_singleton] at short ⊢
      rw [readBounded_append, ih (fun front rest walk here =>
        short front rest walk (here.trans (List.prefix_append _ _))),
        ← drain_append lawful _ _ none (validStore_none Valid)]
      exact bound_eq_self limit grown (fun rest walk => short _ rest walk List.prefix_rfl)

end Bounded

end Bemtvi.Resumable
