/-
Module: Bemtvi.Lib.Framing
Purpose: A reader that appends every chunk to a buffer and parses off the frames at its front.  A
  parser that takes a whole frame and waits on a part of one gives the messages of a framed
  stream, however the stream was cut.
Trusted boundary: none
Main exports: FrameParser, feed, feedAll, parse_prefix, feedAll_eq
-/
import Mathlib

namespace Bemtvi.Framing

variable {α β : Type}

/-- What a parser does with frames: a whole one at the front is taken, a part of one waits. -/
structure FrameParser (parse : List α → List β × List α) (Frame : List α → β → Prop) : Prop where
  nil : parse [] = ([], [])
  head : ∀ {frame : List α} {message : β} (rest : List α), Frame frame message →
    parse (frame ++ rest) = (message :: (parse rest).1, (parse rest).2)
  wait : ∀ {frame : List α} {message : β} {front : List α}, Frame frame message →
    List.IsPrefix front frame → front ≠ frame → parse front = ([], front)

variable {parse : List α → List β × List α} {Frame : List α → β → Prop}

/-- One read: append the chunk to what was kept and parse. -/
def feed (parse : List α → List β × List α) (reader : List β × List α) (chunk : List α) :
    List β × List α :=
  (reader.1 ++ (parse (reader.2 ++ chunk)).1, (parse (reader.2 ++ chunk)).2)

/-- All the reads, on an empty buffer. -/
def feedAll (parse : List α → List β × List α) (chunks : List (List α)) : List β × List α :=
  chunks.foldl (feed parse) ([], [])

variable {frames : List (List α)} {messages : List β}

/-- A part of a framed stream is some whole frames and a rest that waits. -/
theorem parse_prefix (framing : FrameParser parse Frame)
    (framed : List.Forall₂ Frame frames messages) {buffer : List α}
    (front : List.IsPrefix buffer frames.flatten) :
    ∃ done todo read unread rest, frames = done ++ todo ∧ messages = read ++ unread ∧
      List.Forall₂ Frame todo unread ∧ buffer = done.flatten ++ rest ∧
      parse buffer = (read, rest) ∧ parse rest = ([], rest) := by
  induction framed generalizing buffer with
  | nil =>
      have empty : buffer = [] := List.prefix_nil.1 front
      rw [empty]
      exact ⟨[], [], [], [], [], rfl, rfl, .nil, rfl, framing.nil, framing.nil⟩
  | @cons frame message frames messages first framed ih =>
      rw [List.flatten_cons] at front
      by_cases whole : List.IsPrefix frame buffer
      · rcases whole with ⟨later, rfl⟩
        have onwards := (List.prefix_append_right_inj frame).1 front
        rcases ih onwards with
          ⟨done, todo, read, unread, rest, split, read_split, left, held, parsed, waits⟩
        refine ⟨frame :: done, todo, message :: read, unread, rest, ?_, ?_, left, ?_, ?_, waits⟩
        · rw [split, List.cons_append]
        · rw [read_split, List.cons_append]
        · rw [held, List.flatten_cons, List.append_assoc]
        · rw [framing.head later first, parsed]
      · have inside : List.IsPrefix buffer frame := by
          rcases List.prefix_or_prefix_of_prefix front (List.prefix_append frame _) with short | long
          · exact short
          · exact absurd long whole
        have part : buffer ≠ frame := by
          intro same
          rw [same] at whole
          exact whole (List.prefix_refl frame)
        have waits := framing.wait first inside part
        exact ⟨[], frame :: frames, [], message :: messages, buffer, rfl, rfl, .cons first framed,
          rfl, waits, waits⟩

theorem foldl_feed (framing : FrameParser parse Frame) (chunks : List (List α)) :
    ∀ {frames : List (List α)} {messages : List β} {out : List β} {held : List α},
      List.Forall₂ Frame frames messages → held ++ chunks.flatten = frames.flatten →
      parse held = ([], held) → chunks.foldl (feed parse) (out, held) = (out ++ messages, []) := by
  induction chunks with
  | nil =>
      intro frames messages out held framed whole waits
      rw [List.flatten_nil, List.append_nil] at whole
      cases framed with
      | nil =>
          rw [whole, List.append_nil]
          rfl
      | @cons frame message frames messages first framed =>
          rw [whole, List.flatten_cons, framing.head _ first] at waits
          cases congrArg Prod.fst waits
  | cons chunk chunks ih =>
      intro frames messages out held framed whole waits
      rw [List.flatten_cons, ← List.append_assoc] at whole
      have front : List.IsPrefix (held ++ chunk) frames.flatten := ⟨chunks.flatten, whole⟩
      rcases parse_prefix framing framed front with
        ⟨done, todo, read, unread, rest, split, read_split, left, buffered, parsed, waits'⟩
      rw [buffered, split, List.flatten_append, List.append_assoc] at whole
      have onwards : rest ++ chunks.flatten = todo.flatten := List.append_cancel_left whole
      rw [List.foldl_cons, feed, parsed, ih left onwards waits', read_split, List.append_assoc]

/-- **Cuts do not matter.**  However a stream of frames is cut, its messages come out, in order and
with nothing left. -/
theorem feedAll_eq (framing : FrameParser parse Frame)
    (framed : List.Forall₂ Frame frames messages) {chunks : List (List α)}
    (whole : chunks.flatten = frames.flatten) : feedAll parse chunks = (messages, []) :=
  foldl_feed framing chunks framed whole framing.nil

end Bemtvi.Framing
