/-
Module: Bemtvi.Daemon.Supervisor
Purpose: The reconnect supervisor of a daemon link as a machine: it serves a connection, redials a
  dropped one with backoff, parks when told to or when its budget is spent, and takes the editor's
  commands from one queue at each of its waiting points.
Trusted boundary: human-reviewed model of daemon.rs:619-680 and 695-974; every event is one stretch
  of the supervisor between two await points; a dial's outcome, a drop and the clock are events
Main exports: Link, Event, step, connected, Mark, Ledger, Ok
-/
import Bemtvi.Lib.Run

namespace Bemtvi.Daemon.Supervisor

open Run (Lawful)

/-! ### The link's state -/

/-- A dialed connection. -/
abbrev Conn := Nat

/-- The four swappable `LinkRpc` cells. -/
structure Cells where
  control : Option Conn
  proc : Option Conn
  lsp : Option Conn
  term : Option Conn
deriving Repr, DecidableEq

/-- All four cells set alike. -/
def Cells.all (rpc : Option Conn) : Cells := ⟨rpc, rpc, rpc, rpc⟩

inductive DaemonStatus where
  | connected
  | reconnecting (attempt max : Nat)
  | disconnected
deriving Repr, DecidableEq

inductive LinkCommand where
  | reconnect
  | disconnect
deriving Repr, DecidableEq

/-- How serving a connection ended. -/
inductive Served where
  | dropped
  | disconnect
  | closed
deriving Repr, DecidableEq

structure ReconnectPolicy where
  maxAttempts : Nat
  base : Nat
  cap : Nat

/-- The backoff before attempt `n`, capped. -/
def ReconnectPolicy.backoff (policy : ReconnectPolicy) (attempt : Nat) : Nat :=
  min (policy.base * 2 ^ min (attempt - 1) 31) policy.cap

/-- Where the supervisor waits. -/
inductive Phase where
  /-- In `serve_connection`. -/
  | serving (conn : Conn)
  /-- In `wait_or_cmd`, before an attempt of `reconnect_cycle`. -/
  | backoff (attempt : Nat)
  /-- In `make()`, which nothing interrupts. -/
  | dialing (attempt : Nat)
  /-- In the inner loop of `maintain_link`, waiting for a `:reconnect`. -/
  | parked
  | returned
deriving Repr, DecidableEq

/-- What an observer notes. -/
inductive Mark where
  | published (conn : Conn)
  | cleared
  | status (status : DaemonStatus)
  /-- A connection's serving ended. -/
  | served (conn : Conn) (how : Served)
  | sent (cmd : LinkCommand)
  | consumed (cmd : LinkCommand)
  /-- `recv` found the handle dropped. -/
  | closed
  | slept (duration : Nat)
  | dialed (attempt : Nat)
  | dialFailed (attempt : Nat)
  | dialSucceeded (conn : Conn)
  | returned
deriving Repr, DecidableEq

structure Link where
  cells : Cells
  status : DaemonStatus
  /-- Commands sent and not yet received. -/
  queue : List LinkCommand
  /-- The editor still holds its `ReconnectHandle`. -/
  handle : Bool
  phase : Phase
  trace : List Mark
deriving Repr, DecidableEq

/-! ### The supervisor -/

namespace Link

def note (link : Link) (mark : Mark) : Link := { link with trace := link.trace ++ [mark] }

/-- `publish_cells`. -/
def publishCells (link : Link) (conn : Conn) : Link :=
  { link with cells := .all (some conn) }.note (.published conn)

/-- `clear_cells`. -/
def clearCells (link : Link) : Link := { link with cells := .all none }.note .cleared

/-- `status.send_replace`. -/
def sendReplace (link : Link) (status : DaemonStatus) : Link :=
  { link with status := status }.note (.status status)

/-- `make()`. -/
def make (link : Link) (attempt : Nat) : Link :=
  { link with phase := .dialing attempt }.note (.dialed attempt)

/-- `maintain_link` on `Served::Disconnect`: park. -/
def park (link : Link) : Link :=
  { link.clearCells.sendReplace .disconnected with phase := .parked }

/-- One turn of `reconnect_cycle`'s loop, up to its first wait; past the budget it returns
`Served::Disconnect`. -/
def attempt (policy : ReconnectPolicy) (link : Link) (n : Nat) (immediate : Bool) : Link :=
  if n ≤ policy.maxAttempts then
    let link := link.sendReplace (.reconnecting n policy.maxAttempts)
    if immediate && n == 1 then link.make n else { link with phase := .backoff n }
  else link.park

/-- One turn of `maintain_link`'s loop, up to its first wait. -/
def maintain (policy : ReconnectPolicy) (link : Link) : Served → Link
  | .closed => { link.clearCells with phase := .returned }.note .returned
  | .dropped => link.clearCells.attempt policy 1 false
  | .disconnect => link.park

/-- What the supervisor does with a command, where it waits for one. -/
def consume (policy : ReconnectPolicy) (link : Link) : LinkCommand → Option Link
  | .reconnect =>
      match link.phase with
      | .serving _ => some link
      | .backoff n => some (link.make n)
      | .parked => some (link.attempt policy 1 true)
      | .dialing _ | .returned => none
  | .disconnect =>
      match link.phase with
      | .serving conn => some ((link.note (.served conn .disconnect)).maintain policy .disconnect)
      | .backoff _ => some (link.maintain policy .disconnect)
      | .parked => some link
      | .dialing _ | .returned => none

/-- What it does when the handle is gone. -/
def close (policy : ReconnectPolicy) (link : Link) : Option Link :=
  match link.phase with
  | .serving conn => some ((link.note (.served conn .closed)).maintain policy .closed)
  | .backoff _ => some (link.maintain policy .closed)
  | .parked => some ({ link with phase := .returned }.note .returned)
  | .dialing _ | .returned => none

end Link

/-! ### Events -/

inductive Event where
  /-- `:reconnect` or `:disconnect`. -/
  | command (cmd : LinkCommand)
  | dropHandle
  /-- The connection's demuxes end. -/
  | drop
  /-- The supervisor's `recv` is ready. -/
  | receive
  /-- The backoff is over. -/
  | elapse
  | dialOk (conn : Conn)
  | dialErr
deriving Repr, DecidableEq

def step (policy : ReconnectPolicy) (link : Link) : Event → Option Link
  | .command cmd =>
      if link.handle then some ({ link with queue := link.queue ++ [cmd] }.note (.sent cmd))
      else none
  | .dropHandle => some { link with handle := false }
  | .drop =>
      match link.phase with
      | .serving conn => some ((link.note (.served conn .dropped)).maintain policy .dropped)
      | _ => none
  | .receive =>
      match link.queue with
      | cmd :: rest => ({ link with queue := rest }.note (.consumed cmd)).consume policy cmd
      | [] => if link.handle then none else (link.note .closed).close policy
  | .elapse =>
      match link.phase with
      | .backoff n => some ((link.note (.slept (policy.backoff n))).make n)
      | _ => none
  | .dialOk conn =>
      match link.phase with
      | .dialing _ =>
          -- The cells first: the editor's resync runs off the `Connected`.
          some { ((link.note (.dialSucceeded conn)).publishCells conn).sendReplace .connected with
            phase := .serving conn }
      | _ => none
  | .dialErr =>
      match link.phase with
      | .dialing n => some ((link.note (.dialFailed n)).attempt policy (n + 1) false)
      | _ => none

/-- The first connection is dialed and published before the supervisor runs. -/
def connected (first : Conn) : Link where
  cells := .all (some first)
  status := .connected
  queue := []
  handle := true
  phase := .serving first
  trace := [.published first, .status .connected]

/-! ### What the trace says -/

/-- What an observer knows from the marks. -/
structure Ledger where
  /-- What was published and not cleared. -/
  cells : Option Conn
  /-- The connection being served. -/
  served : Option Conn
  /-- A `:disconnect` was consumed, and no `:reconnect` since. -/
  down : Bool
  /-- Dials since the last drop or `:reconnect` consumed while nothing was served. -/
  dials : Nat
  /-- Since then a dial succeeded, a `:disconnect` was consumed or the handle was dropped. -/
  settled : Bool
deriving Repr, DecidableEq

def Ledger.blank : Ledger := ⟨none, none, false, 0, true⟩

/-- A new budget. -/
def Ledger.reset (ledger : Ledger) : Ledger := { ledger with dials := 0, settled := false }

@[grind =]
def Ledger.after (ledger : Ledger) : Mark → Ledger
  | .published conn => { ledger with cells := some conn, served := some conn }
  | .cleared => { ledger with cells := none }
  | .served _ .dropped => { ledger with served := none }.reset
  | .served _ _ => { ledger with served := none }
  | .consumed .reconnect =>
      if ledger.served.isNone then { ledger with down := false }.reset
      else { ledger with down := false }
  | .consumed .disconnect => { ledger with down := true, settled := true }
  | .closed => { ledger with settled := true }
  | .dialed _ => { ledger with dials := ledger.dials + 1 }
  | .dialSucceeded _ => { ledger with settled := true }
  | _ => ledger

/-- The ledger of a trace. -/
def ledger (trace : List Mark) : Ledger := trace.foldl Ledger.after .blank

/-- What each mark asks of the marks before it. -/
def Ok (policy : ReconnectPolicy) (before : List Mark) : Mark → Prop
  | .status .connected => (ledger before).served.isSome ∧
      (ledger before).cells = (ledger before).served
  | .status (.reconnecting _ max) => (ledger before).cells = none ∧ max = policy.maxAttempts
  | .status .disconnected => (ledger before).cells = none ∧
      ((ledger before).settled = false → (ledger before).dials = policy.maxAttempts)
  | .returned => (ledger before).cells = none
  | .published _ => (ledger before).down = false
  | .dialed _ => (ledger before).down = false ∧ (ledger before).served = none ∧
      (ledger before).dials < policy.maxAttempts
  | _ => True

/-- The commands of a trace that were sent, and those consumed. -/
def sentOf (trace : List Mark) : List LinkCommand :=
  trace.filterMap fun | .sent cmd => some cmd | _ => none

def consumedOf (trace : List Mark) : List LinkCommand :=
  trace.filterMap fun | .consumed cmd => some cmd | _ => none

end Bemtvi.Daemon.Supervisor
