/-
Module: Bemtvi.Rpc.Pending
Purpose: The request side of a connection as a machine: concurrent `request` calls on clones of one
  handle, the reader dispatching decoded frames, the reader's refusal, and the cleanup task,
  all over one shared optional map from message ids to oneshot senders.
Trusted boundary: human-reviewed model of lib.rs:39-68, 125-313 and 793-872; `write` stands for
  rmpv's `write_value`; every event is one stretch of code between two await points, or under one
  lock; the id counter does not wrap
Main exports: Call, Link, Event, Link.step, classify
-/
import Bemtvi.Lib.Run
import Bemtvi.Rpc.Encode

namespace Bemtvi.Rpc

open Msgpack

/-! ### Frames -/

/-- What an oneshot carries: the peer's result, or its error. -/
abbrev Reply := Except Value Value

/-- A message from the peer that the consumer must act on. -/
inductive Incoming where
  | request (id : Nat) (method : String) (params : List Value)
  | notification (method : String) (params : List Value)

/-- What `dispatch` makes of a decoded frame. -/
inductive Frame where
  | incoming (message : Incoming)
  | response (id : Nat) (reply : Reply)
  | ignored

/-- `Value::as_u64`. -/
def asU64 : Value → Option Nat
  | .int n => if 0 ≤ n ∧ n < 2 ^ 64 then some n.toNat else none
  | _ => none

/-- `take`: the field at `idx`, `Nil` when there is none. -/
def take (arr : List Value) (idx : Nat) : Value := arr[idx]?.getD .nil

/-- `take_params`: empty when absent or not an array. -/
def takeParams (arr : List Value) (idx : Nat) : List Value :=
  match take arr idx with
  | .array params => params
  | _ => []

/-- `take_str`: empty when absent, not a string, or not UTF-8. -/
def takeStr (arr : List Value) (idx : Nat) : String :=
  match take arr idx with
  | .str bytes => (String.fromUTF8? ⟨bytes.toArray⟩).getD ""
  | _ => ""

/-- The classification `dispatch` makes before it acts. -/
def classify : Value → Frame
  | .array arr =>
      match arr[0]?.bind asU64 with
      | some 0 =>
          .incoming (.request ((arr[1]?.bind asU64).getD 0) (takeStr arr 2) (takeParams arr 3))
      | some 1 =>
          .response ((arr[1]?.bind asU64).getD 0)
            (match take arr 2 with
              | .nil => .ok (take arr 3)
              | err => .error err)
      | some 2 => .incoming (.notification (takeStr arr 1) (takeParams arr 2))
      | _ => .ignored
  | _ => .ignored

/-! ### Calls -/

/-- The receiving end of a oneshot. -/
inductive Channel where
  | empty
  | sent (reply : Reply)
  /-- The sender was dropped without sending. -/
  | dropped

/-- What `Rpc::request` returns. -/
inductive Resolution where
  | ok (value : Value)
  /-- `rpc error: {e}`. -/
  | error (value : Value)
  /-- `rpc connection closed`. -/
  | closed
  /-- `rpc request frame too large: '{method}' {why}`. -/
  | tooLarge (method why : String)

/-- How a call returns the reply it is sent. -/
def Resolution.of : Reply → Resolution
  | .ok v => .ok v
  | .error e => .error e

/-- Where the body of a `request` call stands. -/
inductive Phase where
  /-- The id is drawn and the channel made. -/
  | allocated
  /-- The sender is in the map. -/
  | registered
  /-- The frame is on the wire's queue and the receiver awaited. -/
  | awaiting
  | done (resolution : Resolution)
  /-- The future was dropped. -/
  | cancelled

/-- One `request` call. -/
structure Call where
  msgId : Nat
  method : String
  params : List Value
  phase : Phase
  channel : Channel

/-- Dropping the sender of a call's channel. -/
def Call.hangUp (call : Call) : Call :=
  match call.channel with
  | .empty => { call with channel := .dropped }
  | _ => call

/-- Sending on a call's channel. -/
def Call.deliver (reply : Reply) (call : Call) : Call :=
  match call.channel with
  | .empty => { call with channel := .sent reply }
  | _ => call

def Call.moveTo (phase : Phase) (call : Call) : Call := { call with phase := phase }

/-- The request's frame `[0, msgid, method, params]`. -/
def Call.frame (call : Call) : Value :=
  .array [.int 0, .int call.msgId, text call.method, .array call.params]

/-! ### The connection -/

/-- The pending map; a sender is named by the call whose channel it feeds. -/
abbrev PendingMap := AList (fun _ : Nat => Nat)

/-- One connection's request side. -/
structure Link where
  nextId : Nat
  /-- `None` once the connection has been torn down. -/
  pending : Option PendingMap
  calls : List Call
  /-- Frames queued for the writer. -/
  out : List (List UInt8)
  incoming : List Incoming
  readerGone : Bool
  writerGone : Bool

/-- `connect`. -/
def Link.init : Link where
  nextId := 1
  pending := some ∅
  calls := []
  out := []
  incoming := []
  readerGone := false
  writerGone := false

/-- Remove a message id from the map, dropping the sender it holds. -/
def Link.forget (link : Link) (id : Nat) : Link :=
  match link.pending with
  | none => link
  | some map =>
      match map.lookup id with
      | none => link
      | some c =>
          { link with pending := some (map.erase id), calls := link.calls.modify c Call.hangUp }

/-- Return from `request`: the guard drops, and the call ends in `phase`. -/
def Link.finish (link : Link) (c id : Nat) (phase : Phase) : Link :=
  let link := link.forget id
  { link with calls := link.calls.modify c (Call.moveTo phase) }

/-- Register a call's sender, while the connection is live. -/
def Link.register (link : Link) (c : Nat) (call : Call) : Link :=
  match link.pending with
  | some map =>
      -- `HashMap::insert` drops a sender it replaces.
      let calls := match map.lookup call.msgId with
        | some old => link.calls.modify old Call.hangUp
        | none => link.calls
      { link with
        pending := some (map.insert call.msgId c)
        calls := calls.modify c (Call.moveTo .registered) }
  | none => { link with calls := link.calls.modify c (Call.moveTo (.done .closed)) }

/-- Hand a response to the call its id is registered for, if any. -/
def Link.answer (link : Link) (id : Nat) (reply : Reply) : Link :=
  match link.pending with
  | none => link
  | some map =>
      match map.lookup id with
      | none => link
      | some c =>
          { link with
            pending := some (map.erase id)
            calls := link.calls.modify c (Call.deliver reply) }

/-- Take the pending map and end every sender in it with `last`. -/
def Link.takePending (link : Link) (last : Call → Call) : Link :=
  match link.pending with
  | none => link
  | some map =>
      { link with
        pending := none
        calls := map.entries.foldl (fun calls entry => calls.modify entry.2 last) link.calls }

/-- The message `refuse_peer` fails the requests in flight with. -/
def refusal (why : String) : Reply :=
  .error (text s!"bemtvi-rpc: closing the connection: {why}")

/-- One event of a connection. -/
inductive Event where
  /-- A `request` call draws its id. -/
  | begin (method : String) (params : List Value)
  /-- It takes the lock and registers. -/
  | register (c : Nat)
  /-- It encodes and queues its frame. -/
  | transmit (c : Nat)
  /-- Its future is polled and finds its channel ready. -/
  | resume (c : Nat)
  /-- Its future is dropped at the await. -/
  | cancel (c : Nat)
  /-- `Rpc::respond`. -/
  | respond (id : Nat) (result : Reply)
  /-- The reader dispatches a decoded frame. -/
  | frame (val : Value)
  /-- The reader refuses the peer and returns. -/
  | refuse (why : String)
  /-- The reader returns: end of file, a read error, or its consumer gone. -/
  | readerEnds
  /-- The writer returns. -/
  | writerEnds
  /-- The cleanup task wakes on either end. -/
  | cleanup

section

variable (write : Value → List UInt8)

/-- The frame `Rpc::respond` queues. -/
def response (id : Nat) (result : Reply) : List UInt8 :=
  let fields : Value × Value := match result with
    | .ok v => (.nil, v)
    | .error e => (e, .nil)
  match encodeChecked write (.array [.int 1, .int id, fields.1, fields.2]) with
  | .ok bytes => bytes
  | .error why =>
      write (.array [.int 1, .int id,
        text s!"response frame exceeds the rpc limit: it {why}", .nil])

/-- A registered call encodes its frame and hands it to the writer. -/
def Link.transmit (link : Link) (c : Nat) (call : Call) : Link :=
  match encodeChecked write call.frame with
  | .error why => link.finish c call.msgId (.done (.tooLarge call.method why))
  | .ok bytes =>
      if link.writerGone then
        (link.forget call.msgId).finish c call.msgId (.done .closed)
      else
        { link with
          out := link.out ++ [bytes]
          calls := link.calls.modify c (Call.moveTo .awaiting) }

/-- One event; `none` when it cannot happen. -/
def Link.step (link : Link) : Event → Option Link
  | .begin method params =>
      some { link with
        nextId := link.nextId + 1
        calls := link.calls ++ [⟨link.nextId, method, params, .allocated, .empty⟩] }
  | .register c =>
      match link.calls[c]? with
      | some call =>
          match call.phase with
          | .allocated => some (link.register c call)
          | _ => none
      | none => none
  | .transmit c =>
      match link.calls[c]? with
      | some call =>
          match call.phase with
          | .registered => some (link.transmit write c call)
          | _ => none
      | none => none
  | .resume c =>
      match link.calls[c]? with
      | some call =>
          match call.phase, call.channel with
          | .awaiting, .sent (.ok v) => some (link.finish c call.msgId (.done (.ok v)))
          | .awaiting, .sent (.error e) => some (link.finish c call.msgId (.done (.error e)))
          | .awaiting, .dropped => some (link.finish c call.msgId (.done .closed))
          | _, _ => none
      | none => none
  | .cancel c =>
      match link.calls[c]? with
      | some call =>
          match call.phase with
          | .awaiting => some (link.finish c call.msgId .cancelled)
          | _ => none
      | none => none
  | .respond id result =>
      some (if link.writerGone then link
        else { link with out := link.out ++ [response write id result] })
  | .frame val =>
      if link.readerGone then none
      else
        match classify val with
        | .response id reply => some (link.answer id reply)
        | .incoming message => some { link with incoming := link.incoming ++ [message] }
        | .ignored => some link
  | .refuse why =>
      if link.readerGone then none
      else some { link.takePending (Call.deliver (refusal why)) with readerGone := true }
  | .readerEnds => some { link with readerGone := true }
  | .writerEnds => some { link with writerGone := true }
  | .cleanup =>
      if link.readerGone || link.writerGone then
        some { link.takePending Call.hangUp with readerGone := true, writerGone := true }
      else none

end

end Bemtvi.Rpc
