/-
Module: Bemtvi.Lsp.Manager
Purpose: The native language-server manager: the supervisor that routes commands into per-server
  channels, one task a channel that runs one server lifetime after another behind a breaker, and
  the detached tasks that await a server's answers.
Trusted boundary: human-reviewed model of manager.rs:169-621; the tasks share a session's
  current-thread runtime, so each stretch of code between two await points is one event; a client
  main loop that is over, ended or aborted, fails the requests that wait on it; what a
  notification writes to the socket, and the log file, are left out
Main exports: ServerMsg, Ending, Stage, Task, Flight, World, Event, step
-/
import Bemtvi.Lib.Run
import Bemtvi.Lsp.Protocol

namespace Bemtvi.Lsp.Manager

variable {κ α : Type}

/-- Commands from the editor to the supervisor. -/
inductive LspCommand (κ α : Type) where
  | ensure (key : κ) (program : String)
  | notify (key : κ) (note : α)
  | request (key : κ) (token : ReqToken) (req : LspRequest α)
  | applyEditResponse (key : κ) (id : Nat) (outcome : α)
  | shutdown (key : κ)

/-- A message from the supervisor to one per-server task; a request goes by its number among the
requests sent. -/
inductive ServerMsg (α : Type) where
  | notify (note : α)
  | request (serial : Nat) (token : ReqToken) (req : LspRequest α)
  | applyEditResponse (id : Nat) (outcome : α)
  | shutdown

/-- Why the process is being reaped. -/
inductive Ending where
  | shutdown
  /-- The reason its queued requests get, the message of its exit event, and whether that event
  carries the exit status. -/
  | died (reason message : String) (status : Bool)
deriving DecidableEq

/-- A lifetime that failed before the handshake was over. -/
def Ending.unborn (message : String) : Ending := .died "language server exited" message false

/-- How a client main loop ended. -/
inductive LoopResult where
  | ok
  | err (error : String)
  | panicked (error : String)

def LoopResult.reason : LoopResult → String
  | .ok => "language server exited"
  | .err error => s!"language server stream failed: {error}"
  | .panicked error => s!"language server main loop task panicked: {error}"

/-- Where a per-server task awaits. -/
inductive Stage where
  | spawning
  | initializing (inst : Nat)
  | serving (inst : Nat)
  /-- The graceful `shutdown` of the server. -/
  | stopping (inst : Nat)
  /-- `process.wait()`. -/
  | reaping (ending : Ending)
  | sleeping (backoff : Nat)
  /-- Returned: the receiver is dropped. -/
  | gone
deriving DecidableEq

/-- A `run_server` task. -/
structure Task (κ α : Type) where
  key : κ
  program : String
  stage : Stage
  queue : List (ServerMsg α)
  /-- The times of its recent failures, in milliseconds. -/
  failures : List Nat

/-- A request issued on an instance's socket, in a detached task. -/
structure Flight (κ α : Type) where
  serial : Nat
  key : κ
  token : ReqToken
  req : LspRequest α
  inst : Nat
  /-- What the main loop resolved it with. -/
  outcome : Option (LspReply α)

/-- A request the supervisor sent into a channel. -/
structure Sent (κ α : Type) where
  task : Nat
  key : κ
  token : ReqToken
  req : LspRequest α

/-- What the editor is told; a reply keeps the request it settles, and the instance it was issued to
if it was. -/
inductive Mark (κ α : Type) where
  | log (key : κ) (message : String)
  | initialized (key : κ) (init : α)
  | exited (key : κ) (message : String) (code signal : Option Int)
  | reply (key : κ) (token : ReqToken) (reply : LspReply α) (serial : Nat) (inst : Option Nat)
  /-- Not an event: the request was handed to the instance's socket. -/
  | issued (serial inst : Nat)

structure World (κ α : Type) where
  servers : κ → Option Nat
  /-- The supervisor's loop is over. -/
  closed : Bool
  tasks : Nat → Option (Task κ α)
  nextTask : Nat
  /-- How many server instances there were. -/
  instances : Nat
  /-- Those whose main loop is over. -/
  ended : List Nat
  flights : List (Flight κ α)
  sends : List (Sent κ α)
  marks : List (Mark κ α)

def World.start : World κ α where
  servers := fun _ => none
  closed := false
  tasks := fun _ => none
  nextTask := 0
  instances := 0
  ended := []
  flights := []
  sends := []
  marks := []

def World.setTask (world : World κ α) (id : Nat) (task : Task κ α) : World κ α :=
  { world with tasks := fun other => if other = id then some task else world.tasks other }

/-! ### The breaker -/

def window : Nat := 10000

def giveUp : Nat := 5

def baseBackoff : Nat := 200

def maxBackoff : Nat := 5000

/-- The failures of the window that ends now, this one among them. -/
def recent (failures : List Nat) (now : Nat) : List Nat :=
  (failures ++ [now]).dropWhile fun time => decide (now - time > window)

def backoff (failures : List Nat) : Nat :=
  min (baseBackoff * 2 ^ (failures.length - 1)) maxBackoff

/-! ### The end of a lifetime -/

/-- `drain_queued`: the replies to the requests still in the channel. -/
def drainQueued (key : κ) (reason : String) (queue : List (ServerMsg α)) : List (Mark κ α) :=
  queue.filterMap fun
    | .request serial token req =>
        some (.reply key token (degradeRequest req reason) serial none)
    | _ => none

/-- `run_server` on a failed lifetime, the channel drained: the task as it goes on, and what is said
of it. -/
def Task.afterFailure (task : Task κ α) (held : Bool) (now : Nat) : Task κ α × List (Mark κ α) :=
  -- `rx.is_closed()`: the supervisor dropped the sender.
  if held = false then ({ task with queue := [], stage := .gone }, [])
  else
    let failures := recent task.failures now
    if giveUp ≤ failures.length then
      ({ task with queue := [], failures := failures, stage := .gone },
        [.log task.key s!"lsp: {task.program} kept failing to start; giving up"])
    else
      ({ task with queue := [], failures := failures, stage := .sleeping (backoff failures) }, [])

section

variable [DecidableEq κ]

/-- The supervisor holds a sender into the task's channel. -/
def World.holds (world : World κ α) (id : Nat) (task : Task κ α) : Bool :=
  decide (world.servers task.key = some id)

/-- A lifetime that failed, from the drain of its channel on. -/
def World.failed (world : World κ α) (id : Nat) (task : Task κ α) (reason message : String)
    (code signal : Option Int) (now : Nat) : World κ α :=
  let after := task.afterFailure (world.holds id task) now
  { world with
      marks := world.marks ++ (drainQueued task.key reason task.queue ++
        Mark.exited task.key message code signal :: after.2) }.setTask id after.1

/-! ### The supervisor -/

/-- Send into the channel of the server registered under the key, if there is one and its receiver
is not gone. -/
def World.deliver (world : World κ α) (key : κ) (msg : ServerMsg α) : World κ α :=
  match world.servers key with
  | some id =>
      match world.tasks id with
      | some task =>
          if task.stage = .gone then world
          else world.setTask id { task with queue := task.queue ++ [msg] }
      | none => world
  | none => world

/-- `Request`: like any other message, and it counts as sent when the receiver is not gone. -/
def World.deliverRequest (world : World κ α) (key : κ) (token : ReqToken) (req : LspRequest α) :
    World κ α :=
  match world.servers key with
  | some id =>
      match world.tasks id with
      | some task =>
          if task.stage = .gone then world
          else
            { world with sends := world.sends ++ [Sent.mk id key token req] }.setTask id
              { task with queue := task.queue ++ [ServerMsg.request world.sends.length token req] }
      | none => world
  | none => world

/-- A live server is registered under the key. -/
def World.live (world : World κ α) (key : κ) : Bool :=
  match world.servers key with
  | some id =>
      match world.tasks id with
      | some task => decide (task.stage ≠ .gone)
      | none => false
  | none => false

def World.dropSender (world : World κ α) (key : κ) : World κ α :=
  { world with servers := fun other => if other = key then none else world.servers other }

/-- Start a task for the key. -/
def World.startServer (world : World κ α) (key : κ) (program : String) : World κ α :=
  { world with
      servers := fun other => if other = key then some world.nextTask else world.servers other
      nextTask := world.nextTask + 1 }.setTask world.nextTask ⟨key, program, .spawning, [], []⟩

/-- One turn of `run_supervisor`. -/
def World.supervise (world : World κ α) : LspCommand κ α → World κ α
  | .ensure key program => if world.live key then world else world.startServer key program
  | .notify key note => world.deliver key (.notify note)
  | .request key token req => world.deliverRequest key token req
  | .applyEditResponse key id outcome => world.deliver key (.applyEditResponse id outcome)
  | .shutdown key => (world.deliver key .shutdown).dropSender key

/-! ### Events -/

inductive Event (κ α : Type) where
  | command (command : LspCommand κ α)
  /-- The editor drops the manager. -/
  | hangUp
  | spawnFails (id : Nat) (error : String) (now : Nat)
  | spawned (id : Nat)
  | initTimeout (id : Nat)
  | initLoopEnd (id : Nat)
  | initFails (id : Nat) (error : String)
  | initOk (id : Nat) (init : α)
  /-- `rx.recv()` is ready in the serve loop. -/
  | take (id : Nat)
  /-- The main loop's end is noticed in the serve loop. -/
  | noticeEnd (id : Nat) (result : LoopResult)
  /-- The graceful stop is over, or out of time. -/
  | stopped (id : Nat)
  | reaped (id : Nat) (code signal : Option Int) (now : Nat)
  | wake (id : Nat)
  /-- An instance's main loop ends by itself. -/
  | loopEnd (inst : Nat)
  /-- An instance's main loop resolves a request with the server's answer. -/
  | respond (inst serial : Nat) (reply : LspReply α)
  /-- A detached task goes on; the error is its socket's. -/
  | settle (serial : Nat) (error : String)

/-- The flight a response is for. -/
def Flight.awaits (flight : Flight κ α) (inst serial : Nat) : Bool :=
  flight.serial == serial && flight.inst == inst && flight.outcome.isNone

/-- The flight once the main loop has resolved it. -/
def Flight.resolve (flight : Flight κ α) (reply : LspReply α) : Flight κ α :=
  { flight with outcome := some reply }

/-- What the detached task of a flight tells the editor; `none` when it must wait. -/
def Flight.reply (flight : Flight κ α) (ended : List Nat) (error : String) :
    Option (LspReply α) :=
  match flight.outcome with
  | some reply => some reply
  | none => if flight.inst ∈ ended then some (transportError flight.req error) else none

/-- What the serve loop does with a message. -/
def World.serve (world : World κ α) (id : Nat) (task : Task κ α) (inst : Nat) :
    ServerMsg α → List (ServerMsg α) → World κ α
  | .request serial token req, rest =>
      { world with
        flights := world.flights ++ [Flight.mk serial task.key token req inst none]
        marks := world.marks ++ [Mark.issued serial inst] }.setTask id { task with queue := rest }
  | .shutdown, rest => world.setTask id { task with queue := rest, stage := .stopping inst }
  | .notify _, rest | .applyEditResponse _ _, rest => world.setTask id { task with queue := rest }

@[grind =]
def step (world : World κ α) : Event κ α → Option (World κ α)
  | .command command => if world.closed then none else some (world.supervise command)
  | .hangUp => some { world with servers := fun _ => none, closed := true }
  | .spawnFails id error now =>
      match world.tasks id with
      | some task =>
          if task.stage = .spawning then
            some (world.failed id task "language server exited"
              s!"failed to spawn {task.program}: {error}" none none now)
          else none
      | none => none
  | .spawned id =>
      match world.tasks id with
      | some task =>
          if task.stage = .spawning then
            some ({ world with instances := world.instances + 1 }.setTask id
              { task with stage := .initializing world.instances })
          else none
      | none => none
  | .initTimeout id =>
      match world.tasks id with
      | some task =>
          match task.stage with
          | .initializing inst =>
              some ({ world with ended := inst :: world.ended }.setTask id
                { task with stage := .reaping (.unborn "server did not answer initialize") })
          | _ => none
      | none => none
  | .initLoopEnd id =>
      match world.tasks id with
      | some task =>
          match task.stage with
          | .initializing inst =>
              if inst ∈ world.ended then
                some (world.setTask id
                  { task with stage := .reaping (.unborn "server exited during initialize") })
              else none
          | _ => none
      | none => none
  | .initFails id error =>
      match world.tasks id with
      | some task =>
          match task.stage with
          | .initializing inst =>
              some ({ world with ended := inst :: world.ended }.setTask id
                { task with stage := .reaping (.unborn s!"initialize failed: {error}") })
          | _ => none
      | none => none
  | .initOk id init =>
      match world.tasks id with
      | some task =>
          match task.stage with
          | .initializing inst =>
              some ({ world with marks := world.marks ++ [Mark.initialized task.key init] }.setTask id
                { task with stage := .serving inst })
          | _ => none
      | none => none
  | .take id =>
      match world.tasks id with
      | some task =>
          match task.stage with
          | .serving inst =>
              match task.queue with
              | msg :: rest => some (world.serve id task inst msg rest)
              | [] =>
                  -- Every sender dropped, or nothing to do yet.
                  if world.holds id task then none
                  else some (world.setTask id { task with stage := .stopping inst })
          | _ => none
      | none => none
  | .noticeEnd id result =>
      match world.tasks id with
      | some task =>
          match task.stage with
          | .serving inst =>
              if inst ∈ world.ended then
                some (world.setTask id
                  { task with stage := .reaping (.died result.reason result.reason true) })
              else none
          | _ => none
      | none => none
  | .stopped id =>
      match world.tasks id with
      | some task =>
          match task.stage with
          | .stopping inst =>
              some ({ world with ended := inst :: world.ended }.setTask id
                { task with stage := .reaping .shutdown })
          | _ => none
      | none => none
  | .reaped id code signal now =>
      match world.tasks id with
      | some task =>
          match task.stage with
          | .reaping .shutdown =>
              some ({ world with
                  marks := world.marks ++
                    drainQueued task.key "language server shut down" task.queue }.setTask id
                { task with queue := [], stage := .gone })
          | .reaping (.died reason message status) =>
              some (world.failed id task reason message (if status then code else none)
                (if status then signal else none) now)
          | _ => none
      | none => none
  | .wake id =>
      match world.tasks id with
      | some task =>
          match task.stage with
          | .sleeping _ => some (world.setTask id { task with stage := .spawning })
          | _ => none
      | none => none
  | .loopEnd inst =>
      if inst < world.instances ∧ inst ∉ world.ended then
        some { world with ended := inst :: world.ended }
      else none
  | .respond inst serial reply =>
      if inst ∉ world.ended ∧ world.flights.any (·.awaits inst serial) then
        some { world with
          flights := world.flights.map fun flight =>
            if flight.awaits inst serial then flight.resolve reply else flight }
      else none
  | .settle serial error =>
      match world.flights.find? (·.serial == serial) with
      | some flight =>
          match flight.reply world.ended error with
          | some reply =>
              some { world with
                flights := world.flights.filter (·.serial != serial)
                marks := world.marks ++
                  [.reply flight.key flight.token reply serial (some flight.inst)] }
          | none => none
      | none => none

end

end Bemtvi.Lsp.Manager
