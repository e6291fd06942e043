/-
Module: Bemtvi.Lsp.FileOps
Purpose: The file operations of workspace edits as a machine: each edit's operations are queued in
  the order of its changes, one runs at a time, an operation may chain a second one, a failure
  drops the rest of its edit, and a server that asked for the edit is answered when nothing of it
  is left.
Trusted boundary: human-reviewed model of bemtvi-server/src/lsp/edit.rs:196-434, 535-616, 654-1240
  and 1478-1509, lsp/sync.rs:1330-1334 and lifecycle.rs:60-102, and of
  bemtvi-lsp/src/protocol.rs:809-895; paths, URIs and buffers are what the
  session answers; text edits, messages, the timer and the buffer half of an operation are left out
Main exports: EditHost, Session, Event, step, started, Mark
-/
import Bemtvi.Lsp.TextEdits
import Bemtvi.Lib.Run

namespace Bemtvi.Lsp.FileOps

/-! ### Operations -/

/-- `WorkspaceFsOp`: what is to be done once a job has landed. -/
inductive WorkspaceFsOp where
  | createDir (buffer : Nat) (dir path : String)
  | createPlaceholder (buffer : Nat) (path : String)
  | makeDir (dir : String)
  | renameGuard (source target targetName : String)
  | rename (source target targetName : String)
  | delete (path : String) (ignoreMissing : Bool)
deriving Repr, DecidableEq

/-- `FsJob`: the half that a filesystem does. -/
inductive FsJob where
  | mkdir (path : String) (recursive : Bool) (mode : Nat)
  /-- Nothing but the empty file is written. -/
  | write (path : String)
  | probe (path : String)
  | rename (source target : String)
  | remove (path : String) (recursive : Bool)
deriving Repr, DecidableEq

inductive FsValue where
  | bool (value : Bool)
  | other
deriving Repr, DecidableEq

structure FsError where
  code : String
  message : String
deriving Repr, DecidableEq

structure WorkspaceFsJob where
  op : WorkspaceFsOp
  group : Nat
  index : Nat
  /-- Taken when the job is dispatched. -/
  job : Option FsJob
deriving Repr, DecidableEq

/-! ### Edits -/

inductive WorkspaceChange where
  | edits (uri : String) (edits : List TextEdit) ( annotation : Option String)
  | create (uri : String) (overwrite ignoreIfExists : Bool) ( annotation : Option String)
  | rename (oldUri newUri : String) (overwrite ignoreIfExists : Bool) ( annotation : Option String)
  | delete (uri : String) (recursive ignoreIfNotExists : Bool) ( annotation : Option String)

/-- `WorkspaceChange::annotation`. -/
def WorkspaceChange.annotationId : WorkspaceChange → Option String
  | .edits _ _ annotation => annotation
  | .create _ _ _ annotation => annotation
  | .rename _ _ _ _ annotation => annotation
  | .delete _ _ _ annotation => annotation

/-- `WorkspaceEditData`; of an annotation only whether it asks first. -/
structure WorkspaceEditData where
  changes : List WorkspaceChange
  needsConfirmation : String → Bool

/-- One turn of the loop of `confirmable`. -/
def WorkspaceEditData.ask (edit : WorkspaceEditData) (seen : List String)
    (change : WorkspaceChange) : List String :=
  match change.annotationId with
  | none => seen
  | some id =>
      if id ∈ seen then seen
      else if edit.needsConfirmation id then seen ++ [id] else seen

/-- The annotations that ask first, in the order they are met. -/
def WorkspaceEditData.confirmable (edit : WorkspaceEditData) : List String :=
  edit.changes.foldl edit.ask []

structure ApplyEditOutcome where
  applied : Bool
  failureReason : Option String
  failedChange : Option Nat
deriving Repr, DecidableEq

structure AppliedEdit where
  group : Nat
  pending : Nat
  awaitingConfirm : Bool
  outcome : ApplyEditOutcome
deriving Repr, DecidableEq

/-- The request a server waits on. -/
structure Request where
  key : String
  id : Nat
  label : Option String
deriving Repr, DecidableEq

structure PendingApplyEdit where
  request : Request
  outstanding : Nat
  trouble : List String
  failedChange : Option Nat
  awaitingConfirm : Bool
deriving Repr, DecidableEq

/-! ### The host -/

/-- What an observer notes. -/
inductive Mark where
  | queued (id group index : Nat)
  /-- `LoopOp::Fs`. -/
  | started (id group index : Nat) (job : FsJob)
  /-- The result of a job is taken; a second operation may be chained to it. -/
  | landed (id group : Nat) (chained : Option Nat)
  /-- Something of the edit failed, was refused or was declined. -/
  | troubled (group : Nat)
  /-- `lsp_apply_edit_response`. -/
  | answered (group : Nat) (request : Request) (outcome : ApplyEditOutcome)
deriving Repr, DecidableEq

/-- The fields of `EditHost` that workspace edits go through, each by the name it has without
`workspace_` and `pending_`. -/
structure EditHost where
  fsJobs : Nat → Option WorkspaceFsJob
  nextFsId : Nat
  fsQueue : List Nat
  fsInflight : Option Nat
  /-- By buffer: the group and the change of a `create` that waits for a probe. -/
  createWrites : Nat → Option (Nat × Nat)
  confirmEdits : Nat → Option WorkspaceEditData
  applyEdits : Nat → Option PendingApplyEdit
  nextGroup : Nat
  log : List Mark

/-- `WORKSPACE_FS_JOB_BASE`. -/
def workspaceFsJobBase : Nat := 2 ^ 51

/-- A session's start. -/
def EditHost.new : EditHost where
  fsJobs := fun _ => none
  nextFsId := workspaceFsJobBase
  fsQueue := []
  fsInflight := none
  createWrites := fun _ => none
  confirmEdits := fun _ => none
  applyEdits := fun _ => none
  nextGroup := 1
  log := []

namespace EditHost

def note (host : EditHost) (mark : Mark) : EditHost := { host with log := host.log ++ [mark] }

/-- `queue_workspace_fs_job`. -/
def queueFsJob (host : EditHost) (group index : Nat) (job : FsJob) (op : WorkspaceFsOp) : EditHost :=
  { host with
    nextFsId := host.nextFsId + 1
    fsJobs := Function.update host.fsJobs host.nextFsId (some ⟨op, group, index, some job⟩)
    fsQueue := host.fsQueue ++ [host.nextFsId] }.note (.queued host.nextFsId group index)

/-- A job is dispatched. -/
def start (host : EditHost) (id : Nat) (entry : WorkspaceFsJob) (job : FsJob) (rest : List Nat) :
    EditHost :=
  { host with
    fsQueue := rest
    fsInflight := some id
    fsJobs := Function.update host.fsJobs id (some { entry with job := none }) }.note
      (.started id entry.group entry.index job)

/-- The loop of `pump_workspace_fs_queue`. -/
def pumpFrom (host : EditHost) : List Nat → EditHost
  | [] => { host with fsQueue := [] }
  | id :: rest =>
      match host.fsJobs id with
      | none => pumpFrom host rest
      | some entry =>
          match entry.job with
          -- Dispatched already: skip to the next.
          | none => pumpFrom host rest
          | some job => host.start id entry job rest

/-- `pump_workspace_fs_queue`. -/
def pump (host : EditHost) : EditHost :=
  match host.fsInflight with
  | some _ => host
  | none => host.pumpFrom host.fsQueue

/-- The queued operations of a group. -/
def queuedOf (host : EditHost) (group : Nat) : List Nat :=
  host.fsQueue.filter fun id => (host.fsJobs id).any fun entry => entry.group = group

/-- `drop_workspace_group`. -/
def dropGroup (host : EditHost) (group : Nat) : EditHost :=
  let dropped := host.queuedOf group
  { host with
    createWrites := fun buffer =>
      (host.createWrites buffer).filter fun probe => probe.1 ≠ group
    fsQueue := host.fsQueue.filter fun id => id ∉ dropped
    fsJobs := fun id => if id ∈ dropped then none else host.fsJobs id }

/-! ### Answers -/

/-- What is said of a request with nothing outstanding. -/
def outcome (pending : PendingApplyEdit) : ApplyEditOutcome :=
  let detail := String.intercalate "; " pending.trouble
  let reason :=
    if pending.trouble.isEmpty then none
    else match pending.request.label with
      | some label => some (label ++ ": " ++ detail)
      | none => some detail
  ⟨reason.isNone, reason, pending.failedChange⟩

/-- `settle_apply_edit`. -/
def settle (host : EditHost) (group : Nat) : EditHost :=
  match host.applyEdits group with
  | none => host
  | some pending =>
      if pending.awaitingConfirm || 0 < pending.outstanding then host
      else
        { host with applyEdits := Function.update host.applyEdits group none }.note
          (.answered group pending.request (outcome pending))

/-- The record of a group's request, changed. -/
def record (host : EditHost) (group : Nat) (change : PendingApplyEdit → PendingApplyEdit) :
    EditHost :=
  { host with
    applyEdits := Function.update host.applyEdits group ((host.applyEdits group).map change) }

/-! ### Going through an edit -/

end EditHost

/-- What the session answers while an edit is gone through; a change is named by its index. -/
structure Session where
  uriPath : String → Option String
  /-- The URI ends in `/`. -/
  folder : String → Bool
  parent : String → Option String
  bufferPathFor : String → String
  /-- `buffer_id_for_uri`, `find_buffer_by_path`. -/
  opened : Nat → Option Nat
  /-- `enqueue_replica_open`. -/
  replica : Nat → Nat
  /-- `ensure_buffer_loaded`. -/
  loaded : Nat → Option Nat
  /-- The buffer found for a `create` has been on disk. -/
  onDisk : Nat → Bool
  /-- `create_file_buffer`. -/
  created : Nat → Nat
  /-- Why a document's text edits cannot be made. -/
  refuses : Nat → Option String

/-- What the loop of `apply_workspace_changes` keeps. -/
structure Loop where
  host : EditHost
  queued : Nat
  /-- Buffers that a `create` fills. -/
  filled : List Nat

def Loop.queueFsJob (loop : Loop) (group index : Nat) (job : FsJob) (op : WorkspaceFsOp) : Loop :=
  { loop with host := loop.host.queueFsJob group index job op, queued := loop.queued + 1 }

/-- The directory that `queue_created_file_write` makes, and what it does then. -/
def createdFileJob (session : Session) (buffer : Nat) (path : String) : FsJob × WorkspaceFsOp :=
  let dir := (session.parent path).getD "."
  (.mkdir dir true 0o755, .createDir buffer dir path)

/-- The counted half of `queue_created_file_write`. -/
def Loop.queueCreatedFileWrite (session : Session) (loop : Loop) (group index buffer : Nat)
    (path : String) : Loop :=
  let job := createdFileJob session buffer path
  { loop.queueFsJob group index job.1 job.2 with filled := loop.filled ++ [buffer] }

/-- The buffer of a `create` that is to spare a file, with the probe it may take. -/
def Loop.spared (offtick : Bool) (session : Session) (loop : Loop) (group index : Nat) :
    Loop × Option Nat :=
  match session.opened index with
  | some buffer => (loop, some buffer)
  | none =>
      if offtick then
        let buffer := session.replica index
        ({ loop with host := { loop.host with
            createWrites := Function.update loop.host.createWrites buffer (some (group, index)) } },
          some buffer)
      else (loop, session.loaded index)

/-- One change; an error says why it cannot be resolved. -/
def Loop.take (offtick : Bool) (session : Session) (group : Nat) (loop : Loop) (index : Nat) :
    WorkspaceChange → Except String Loop
  | .edits _ edits _ =>
      if edits.isEmpty then .ok loop
      else match session.refuses index with
        | some reason => .error reason
        | none => .ok loop
  | .create uri overwrite ignoreIfExists _ =>
      match session.uriPath uri with
      | none => .error ("could not open " ++ uri)
      | some path =>
          if session.folder uri then
            .ok (loop.queueFsJob group index (.mkdir path true 0o755) (.makeDir path))
          -- `overwrite` wins over `ignoreIfExists`.
          else if ignoreIfExists && !overwrite then
            match loop.spared offtick session group index with
            | (loop, none) =>
                .ok (loop.queueCreatedFileWrite session group index (session.created index) path)
            | (loop, some buffer) =>
                -- Told to spare what turns out not to be there: a create after all.
                if buffer ∉ loop.filled ∧ loop.host.createWrites buffer = none ∧
                    session.onDisk index = false then
                  .ok (loop.queueCreatedFileWrite session group index buffer path)
                else .ok loop
          else .ok (loop.queueCreatedFileWrite session group index (session.created index) path)
  | .rename oldUri newUri overwrite ignoreIfExists _ =>
      match session.uriPath oldUri, session.uriPath newUri with
      | some source, some target =>
          let targetName := session.bufferPathFor target
          if ignoreIfExists && !overwrite then
            .ok (loop.queueFsJob group index (.probe target) (.renameGuard source target targetName))
          else
            .ok (loop.queueFsJob group index (.rename source target)
              (.rename source target targetName))
      | _, _ => .error ("could not open " ++ oldUri ++ " → " ++ newUri)
  | .delete uri recursive ignoreIfNotExists _ =>
      match session.uriPath uri with
      | none => .error ("could not open " ++ uri)
      | some path =>
          .ok (loop.queueFsJob group index (.remove path recursive) (.delete path ignoreIfNotExists))

/-- The loop of `apply_workspace_changes`: it stops at the first change that cannot be resolved. -/
def Loop.takeAll (offtick : Bool) (session : Session) (group : Nat) (loop : Loop) :
    List (Nat × WorkspaceChange) → Loop × Option (Nat × String)
  | [] => (loop, none)
  | (index, change) :: changes =>
      match loop.take offtick session group index change with
      | .ok loop => loop.takeAll offtick session group changes
      | .error reason => (loop, some (index, reason))

/-- A change's index as the protocol has it. -/
def toU32 (index : Nat) : Nat := index % 2 ^ 32

namespace EditHost

/-- `apply_workspace_changes`. -/
def applyChanges (offtick : Bool) (session : Session) (host : EditHost) (group : Nat)
    (changes : List (Nat × WorkspaceChange)) : EditHost × AppliedEdit :=
  match Loop.takeAll offtick session group ⟨host, 0, []⟩ changes with
  | (loop, some (index, reason)) =>
      ((loop.host.dropGroup group).note (.troubled group),
        ⟨group, 0, false, ⟨false, some reason, some (toU32 index)⟩⟩)
  | (loop, none) => (loop.host.pump, ⟨group, loop.queued, false, ⟨true, none, none⟩⟩)

/-- A change that survives the user's answer. -/
def accepts (declined : List String) (change : WorkspaceChange) : Bool :=
  change.annotationId.all fun id => id ∉ declined

/-- `on_workspace_edit_decision`. -/
def onDecision (offtick : Bool) (session : Session) (host : EditHost) (group : Nat)
    (accepted : List String) : EditHost × AppliedEdit :=
  match host.confirmEdits group with
  | none => (host, ⟨group, 0, false, ⟨true, none, none⟩⟩)
  | some edit =>
      let host := { host with confirmEdits := Function.update host.confirmEdits group none }
      let declined := edit.confirmable.filter fun id => id ∉ accepted
      -- Numbered before filtering.
      let kept := (edit.changes.zipIdx.map fun change => (change.2, change.1)).filter
        fun change => accepts declined change.2
      let (host, applied) :=
        if kept.isEmpty then
          (host.note (.troubled group),
            (⟨group, 0, false,
              ⟨false, some "the user declined the change(s)", none⟩⟩ : AppliedEdit))
        else host.applyChanges offtick session group kept
      let host := host.record group fun pending =>
        { pending with
          awaitingConfirm := false
          outstanding := pending.outstanding + applied.pending
          trouble := pending.trouble ++ applied.outcome.failureReason.toList
          failedChange := pending.failedChange.or applied.outcome.failedChange }
      (host.settle group, applied)

/-- `apply_workspace_edit`; `asked` says whether the user could be asked. -/
def applyEdit (offtick : Bool) (session : Session) (host : EditHost) (edit : WorkspaceEditData)
    (asked : Bool) : EditHost × AppliedEdit :=
  let group := host.nextGroup
  let host := { host with nextGroup := group + 1 }
  if edit.confirmable.isEmpty then
    host.applyChanges offtick session group (edit.changes.zipIdx.map fun change => (change.2, change.1))
  else
    -- `ask_before_applying`.
    let host := { host with confirmEdits := Function.update host.confirmEdits group (some edit) }
    if asked then (host, ⟨group, 0, true, ⟨true, none, none⟩⟩)
    else host.onDecision offtick session group []

/-- `on_apply_edit`. -/
def onApplyEdit (offtick : Bool) (session : Session) (host : EditHost) (edit : WorkspaceEditData)
    (asked : Bool) (request : Request) : EditHost :=
  let (host, applied) := host.applyEdit offtick session edit asked
  let host := { host with
    applyEdits := Function.update host.applyEdits applied.group (some
      { request := request
        outstanding := applied.pending
        trouble := applied.outcome.failureReason.toList
        failedChange := applied.outcome.failedChange
        awaitingConfirm := applied.awaitingConfirm }) }
  host.settle applied.group

/-! ### Results -/

end EditHost

/-- What the result of an operation leads to. -/
inductive Landing where
  | done
  /-- A second operation of the same change is to run next. -/
  | chained (job : FsJob) (op : WorkspaceFsOp)
  | failed (reason : String)
deriving Repr, DecidableEq

/-- How a failure is told. -/
def told (what : String) (error : FsError) : String :=
  what ++ " failed: " ++ error.message ++ " (" ++ error.code ++ ")"

/-- The match of `on_workspace_fs_result`. -/
def landing : WorkspaceFsOp → Except FsError FsValue → Landing
  | .createDir buffer _ path, .ok _ => .chained (.write path) (.createPlaceholder buffer path)
  | .createDir _ dir _, .error e => .failed (told ("create directory " ++ dir) e)
  | .createPlaceholder _ _, .ok _ => .done
  | .createPlaceholder _ path, .error e => .failed (told ("create " ++ path) e)
  | .makeDir _, .ok _ => .done
  | .makeDir dir, .error e => .failed (told ("create directory " ++ dir) e)
  | .renameGuard source target targetName, .ok value =>
      if value = .bool true then .done
      else .chained (.rename source target) (.rename source target targetName)
  | .renameGuard source target _, .error e =>
      .failed (told ("rename " ++ source ++ " → " ++ target) e)
  | .rename _ _ _, .ok _ => .done
  | .rename source target _, .error e => .failed (told ("rename " ++ source ++ " → " ++ target) e)
  | .delete _ _, .ok _ => .done
  | .delete path ignoreMissing, .error e =>
      if ignoreMissing && e.code = "ENOENT" then .done else .failed (told ("delete " ++ path) e)

/-- The last job of a queue brought to its front. -/
def rotate (queue : List Nat) : List Nat := queue.getLast?.toList ++ queue.dropLast

namespace EditHost

/-- A job's result is taken out of the table. -/
def taken (host : EditHost) (id : Nat) (group : Nat) (chained : Option Nat) : EditHost :=
  { host with
    fsInflight := if host.fsInflight = some id then none else host.fsInflight
    fsJobs := Function.update host.fsJobs id none }.note (.landed id group chained)

/-- `on_workspace_fs_result`. -/
def onFsResult (host : EditHost) (id : Nat) (result : Except FsError FsValue) : EditHost :=
  match host.fsJobs id with
  -- Nobody's any more: the watchdog gave up on it.
  | none => if host.fsInflight = some id then { host with fsInflight := none } else host
  | some entry =>
      let host :=
        match landing entry.op result with
        | .done =>
            (host.taken id entry.group none).record entry.group fun pending =>
              { pending with outstanding := pending.outstanding - 1 }
        | .chained job op =>
            let host := (host.taken id entry.group (some host.nextFsId)).queueFsJob entry.group
              entry.index job op
            -- One more for the chained operation, one less for this one.
            { host with fsQueue := rotate host.fsQueue }.record entry.group fun pending =>
              { pending with outstanding := pending.outstanding + 1 - 1 }
        | .failed reason =>
            let host := host.taken id entry.group none
            let dropped := (host.queuedOf entry.group).length
            let detail :=
              if 0 < dropped then reason ++ " (" ++ toString dropped ++ " later change(s) not applied)"
              else reason
            ((host.dropGroup entry.group).note (.troubled entry.group)).record entry.group
              fun pending =>
                { pending with
                  outstanding := 0
                  trouble := pending.trouble ++ [detail]
                  failedChange := pending.failedChange.or (some (toU32 entry.index)) }
      (host.settle entry.group).pump

/-- `on_workspace_fs_timeout`; the delay is in milliseconds. -/
def onFsTimeout (host : EditHost) (delay : Nat) : EditHost :=
  match host.fsInflight with
  | none => host
  | some id => host.onFsResult id (.error
      ⟨"ETIMEDOUT", "no answer in " ++ toString delay ++ "ms (it may still complete)"⟩)

/-- `settle_workspace_create`; `path` is the buffer's, if it is still there. -/
def settleCreate (session : Session) (host : EditHost) (buffer : Nat) (existed : Bool)
    (path : Option String) : EditHost :=
  match host.createWrites buffer with
  | none => host
  | some (group, index) =>
      let host := { host with createWrites := Function.update host.createWrites buffer none }
      if existed then host
      else match path with
        | none => host
        | some path =>
            let job := createdFileJob session buffer path
            (host.queueFsJob group index job.1 job.2).pump

/-- A fetch that leaves no file to write: the probe of a `create` is dropped. -/
def dropCreate (host : EditHost) (buffer : Nat) : EditHost :=
  { host with createWrites := Function.update host.createWrites buffer none }

/-- A server's exit: there is nobody left to answer. -/
def dropRequests (host : EditHost) (key : String) : EditHost :=
  { host with
    applyEdits := fun group =>
      (host.applyEdits group).filter fun pending => pending.request.key ≠ key }

end EditHost

/-! ### Runs -/

inductive Event where
  /-- An edit of the user's, or with a request of a server's. -/
  | apply (session : Session) (edit : WorkspaceEditData) (asked : Bool) (request : Option Request)
  | decide (session : Session) (group : Nat) (accepted : List String)
  | result (id : Nat) (result : Except FsError FsValue)
  | timeout (delay : Nat)
  /-- The bytes of a replica land. -/
  | probed (session : Session) (buffer : Nat) (existed : Bool) (path : Option String)
  /-- The fetch of a replica fails, or finds a directory. -/
  | unread (buffer : Nat)
  /-- A server exits. -/
  | exited (key : String)

/-- The job has been dispatched. -/
def started (log : List Mark) (id : Nat) : Bool :=
  log.any fun mark => match mark with
    | .started other _ _ _ => other = id
    | _ => false

/-- One event; `none` for the result of a job that was never dispatched. -/
def step (offtick : Bool) (host : EditHost) : Event → Option EditHost
  | .apply session edit asked none => some (host.applyEdit offtick session edit asked).1
  | .apply session edit asked (some request) =>
      some (host.onApplyEdit offtick session edit asked request)
  | .decide session group accepted => some (host.onDecision offtick session group accepted).1
  | .result id result => if started host.log id then some (host.onFsResult id result) else none
  | .timeout delay => some (host.onFsTimeout delay)
  | .probed session buffer existed path => some (host.settleCreate session buffer existed path)
  | .unread buffer => some (host.dropCreate buffer)
  | .exited key => some (host.dropRequests key)

/-! ### An example -/

/-- A session with its files at hand and none of them open. -/
def atHand : Session where
  uriPath := some
  folder := fun _ => false
  parent := fun _ => none
  bufferPathFor := id
  opened := fun _ => none
  replica := id
  loaded := fun _ => none
  onDisk := fun _ => false
  created := id
  refuses := fun _ => none

/-- A rename that is to spare its destination, and a delete behind it. -/
def renameThenDelete : WorkspaceEditData where
  changes := [.rename "a" "b" false true none, .delete "c" false false none]
  needsConfirmation := fun _ => false

/-- A server asks for both; the probe finds nothing in the rename's way. -/
def renamed : List Event :=
  [.apply atHand renameThenDelete true (some ⟨"gopls", 7, none⟩),
    .result workspaceFsJobBase (.ok (.bool false))]

end Bemtvi.Lsp.FileOps
