/-
Module: Bemtvi.Daemon.Proc
Purpose: Processes run through a daemon link: concurrent `RemoteHostProc::run` calls on the editor's
  thread, and on the link's thread the demux that forwards the daemon's reports, its end, and the
  two stretches in which `clear_cells` empties the cell and then the map.
Trusted boundary: human-reviewed model of daemon.rs:370-456, 619-680, 1273-1388 and 1877-1897;
  every event is one stretch of code between two await points, or under one lock; a report is
  taken decoded; a frame its encoder accepts counts as sent; `write` stands for rmpv's
  `write_value`
Main exports: ProcSpec, encodeSpawn, DaemonEvent, Run, LinkPhase, World, Event, step
-/
import Bemtvi.Rpc.Encode

namespace Bemtvi.Daemon.Proc

open Msgpack (Value)
open Rpc (text notification)

/-! ### Frames -/

/-- What to run. -/
structure ProcSpec where
  argv : List String
  cwd : Option String
  env : List (String × String)
  stdin : List UInt8
  stream : Bool
deriving Repr, DecidableEq

def procSpawn : String := "proc_spawn"

/-- `encode_spawn`: the parameters of `proc_spawn`. -/
def encodeSpawn (id : Nat) (spec : ProcSpec) : List Value :=
  [.int id,
    .array (spec.argv.map text),
    match spec.cwd with
    | some cwd => text cwd
    | none => .nil,
    .array (spec.env.map fun (k, v) => .array [text k, text v]),
    .bin spec.stdin,
    .bool spec.stream]

/-- One report of the daemon, addressed to a spawn. -/
inductive DaemonEvent where
  | spawned (pid : Option Nat)
  | stdout (lines : List String)
  | exited (code : Int) (stdout stderr : List UInt8)
deriving Repr, DecidableEq

def DaemonEvent.isExit : DaemonEvent → Bool
  | .exited _ _ _ => true
  | _ => false

/-- The exit a run makes up when it is disconnected: `vim.system: daemon disconnected`. -/
def offline : DaemonEvent := .exited (-1) [] "vim.system: daemon disconnected".toUTF8.data.toList

/-- The exit a run makes up when its sender is dropped: `daemon connection closed`. -/
def hungUp : DaemonEvent := .exited (-1) [] "daemon connection closed".toUTF8.data.toList

/-! ### The two threads -/

abbrev Conn := Nat

/-- Where the body of a `run` call stands. -/
inductive Stage where
  /-- The id is drawn, nothing polled yet. -/
  | created
  /-- The cell held a connection. -/
  | checked
  /-- The sender is in the map. -/
  | registered
  /-- `notify` has cloned this connection's `Rpc`. -/
  | sending (conn : Conn)
  /-- In the loop. -/
  | waiting
  /-- Out of the loop, the map entry still to be removed. -/
  | left
  | done
deriving Repr, DecidableEq

/-- One `run` call. -/
structure Run where
  spec : ProcSpec
  stage : Stage
  killed : Bool
  /-- What its channel holds. -/
  queue : List DaemonEvent
  /-- What it gave its `ProcEvents`, oldest first. -/
  delivered : List DaemonEvent
  /-- The connection its `proc_spawn` was sent on. -/
  sentOn : Option Conn
  /-- The daemon reported its exit on that connection. -/
  reported : Bool
deriving Repr, DecidableEq

def Run.create (spec : ProcSpec) : Run := ⟨spec, .created, false, [], [], none, false⟩

/-- Where the link's thread stands. -/
inductive LinkPhase where
  | down
  /-- Published: the demux runs, or is about to. -/
  | up (conn : Conn)
  /-- Serving is over; `clear_cells` is still to come. -/
  | ended (conn : Conn)
  /-- The cell is empty, the map is still to be cleared. -/
  | clearing (conn : Conn)
deriving Repr, DecidableEq

structure World where
  /-- `proc_rpc`. -/
  cell : Option Conn
  /-- The ids that have a sender in `proc_inflight`. -/
  inflight : List Nat
  nextId : Nat
  runs : Nat → Option Run
  phase : LinkPhase
  /-- How many connections there were. -/
  conns : Nat

/-- Nothing dialed, nothing run. -/
def World.start : World where
  cell := none
  inflight := []
  nextId := 1
  runs := fun _ => none
  phase := .down
  conns := 0

def World.setRun (world : World) (id : Nat) (run : Run) : World :=
  { world with runs := fun other => if other = id then some run else world.runs other }

inductive Event where
  /-- `RemoteHostProc::run`. -/
  | call (spec : ProcSpec)
  | check (id : Nat)
  | register (id : Nat)
  /-- `notify` reads the cell. -/
  | look (id : Nat)
  /-- `notify` encodes and queues the frame. -/
  | send (id : Nat)
  | kill (id : Nat)
  | recv (id : Nat)
  | remove (id : Nat)
  /-- `publish_cells`, of a new connection or again of the one that is up. -/
  | publish
  /-- The demux takes one report off the wire. -/
  | frame (id : Nat) (event : DaemonEvent)
  /-- The demux's stream ends. -/
  | demuxEnd
  /-- Another leg ends, a `:disconnect`, a dropped handle: the demux is dropped. -/
  | cancel
  | clearCells
  | clearMap

/-- `forward`, to the run that registered under the id. -/
def World.forward (world : World) (conn : Conn) (id : Nat) (event : DaemonEvent) : World :=
  match world.runs id with
  | some run =>
      world.setRun id { run with
        queue := if id ∈ world.inflight then run.queue ++ [event] else run.queue
        reported := run.reported || (event.isExit && run.sentOn == some conn) }
  | none => world

/-- One turn of a run's loop, on its channel; `none` when it must wait. -/
def Run.receive (run : Run) (held : Bool) : Option Run :=
  match run.queue with
  | event :: rest =>
      some { run with
        queue := rest
        delivered := run.delivered ++ [event]
        stage := if event.isExit then .left else .waiting }
  | [] =>
      -- The sender was dropped: make the exit up.
      if held then none
      else some { run with delivered := run.delivered ++ [hungUp], stage := .left }

section

variable (write : Value → List UInt8)

def step (world : World) : Event → Option World
  | .call spec =>
      some ({ world with nextId := world.nextId + 1 }.setRun world.nextId (.create spec))
  | .check id =>
      match world.runs id with
      | some run =>
          if run.stage = .created then
            match world.cell with
            | none =>
                some (world.setRun id { run with
                  delivered := run.delivered ++ [.spawned none, offline]
                  stage := .done })
            | some _ => some (world.setRun id { run with stage := .checked })
          else none
      | none => none
  | .register id =>
      match world.runs id with
      | some run =>
          if run.stage = .checked then
            some ({ world with inflight := id :: world.inflight }.setRun id
              { run with stage := .registered })
          else none
      | none => none
  | .look id =>
      match world.runs id with
      | some run =>
          if run.stage = .registered then
            match world.cell with
            | none => some (world.setRun id { run with stage := .waiting })
            | some conn => some (world.setRun id { run with stage := .sending conn })
          else none
      | none => none
  | .send id =>
      match world.runs id with
      | some run =>
          match run.stage with
          | .sending conn =>
              match notification write procSpawn (encodeSpawn id run.spec) with
              | .error _ => some (world.setRun id { run with stage := .waiting })
              | .ok _ => some (world.setRun id { run with stage := .waiting, sentOn := some conn })
          | _ => none
      | none => none
  | .kill id =>
      match world.runs id with
      | some run =>
          if run.stage = .waiting ∧ run.killed = false then
            some (world.setRun id { run with killed := true })
          else none
      | none => none
  | .recv id =>
      match world.runs id with
      | some run =>
          if run.stage = .waiting then
            match run.receive (decide (id ∈ world.inflight)) with
            | some run => some (world.setRun id run)
            | none => none
          else none
      | none => none
  | .remove id =>
      match world.runs id with
      | some run =>
          if run.stage = .left then
            some ({ world with inflight := world.inflight.filter (· ≠ id) }.setRun id
              { run with stage := .done })
          else none
      | none => none
  | .publish =>
      match world.phase with
      | .down =>
          some { world with
            cell := some world.conns
            phase := .up world.conns
            conns := world.conns + 1 }
      | .up conn => some { world with cell := some conn }
      | _ => none
  | .frame id event =>
      match world.phase with
      | .up conn => some (world.forward conn id event)
      | _ => none
  | .demuxEnd =>
      match world.phase with
      | .up conn => some { world with inflight := [], phase := .ended conn }
      | _ => none
  | .cancel =>
      match world.phase with
      | .up conn => some { world with phase := .ended conn }
      | _ => none
  | .clearCells =>
      match world.phase with
      | .ended conn => some { world with cell := none, phase := .clearing conn }
      | _ => none
  | .clearMap =>
      match world.phase with
      | .clearing _ => some { world with inflight := [], phase := .down }
      | _ => none

/-- The notification is not sent: the cell is empty, or the encoder refuses the frame. -/
def Unsent (world : World) : Event → Prop
  | .look id => ∃ run, world.runs id = some run ∧ world.cell = none
  | .send id => ∃ run why, world.runs id = some run ∧
      notification write procSpawn (encodeSpawn id run.spec) = .error why
  | _ => False

/-- The spawn an event tries to announce. -/
def Event.subject : Event → Nat
  | .look id | .send id => id
  | _ => 0

/-- A notification that is not sent is not waited for: its sender is gone from the map already, or
the link is between emptying the cell and clearing the map. -/
def Meets (world : World) (event : Event) : Prop :=
  Unsent write world event →
    event.subject ∉ world.inflight ∨ ∃ conn, world.phase = .clearing conn

end

end Bemtvi.Daemon.Proc
