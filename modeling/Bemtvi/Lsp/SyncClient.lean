/-
Module: Bemtvi.Lsp.SyncClient
Purpose: The synchronous language client of the browser: servers keyed by root and name, each with
  a handshake, a queue before it and a table of pending requests after it, fed with the raw bytes
  a daemon forwards.
Trusted boundary: human-reviewed model of sync_client.rs:160-911 and 1290-1300; `Codec` stands for
  what serde and the convert and client modules make of parameters and results; both logs are
  kept whole, where the host drains them each tick; a removed server's pending requests fail in
  the order they were made, where the map has its own
Main exports: Codec, Server, Client, Mark, WireOp, Client.handleMessage, Event, step
-/
import Bemtvi.Lib.Run
import Bemtvi.Lsp.Frames
import Bemtvi.Lsp.Protocol

namespace Bemtvi.Lsp.SyncClient

/-! ### Values -/

inductive LspNotify where
  | didOpen (params : Json)
  | didChange (params : Json)
  | didSave (params : Json)
  | didClose (params : Json)
  | raw (method : String) (params : Json)

inductive PathStyle where
  | posix
  | windows

structure ServerSpawn where
  program : String
  args : List String
  cwd : Option String
  env : List (String × String)
  settings : Option Json
  pathStyle : Option PathStyle

structure ApplyEditOutcome where
  applied : Bool
  failureReason : Option String
  failedChange : Option Nat

inductive RefreshKind where
  | inlayHint
  | semanticTokens

/-- What other modules make of the values that pass through. -/
structure Codec (κ : Type) where
  /-- `serde_json::from_slice`. -/
  fromSlice : List UInt8 → Option Json
  initParams : κ → ServerSpawn → Json
  /-- `from_value::<InitializeResult>`, then `read_init_result`. -/
  readInit : Json → Except String Json
  /-- `distill` of a typed request's result. -/
  distill : LspRequest Json → Json → LspReply Json
  tryNormalizeWorkspaceEdit : Json → Except String Json
  configurationReply : Option Json → Json → List Json
  workspaceFolders : κ → Option PathStyle → Json
  /-- `from_value` at the parameters of a notification. -/
  notificationParams : String → Json → Option Json
  dynRequestMethods : List String
  dynNotifyMethods : List String

/-! ### The client -/

inductive Phase where
  | initializing
  | ready
deriving DecidableEq

/-- A command of the editor; a request goes by its number among the requests made. -/
inductive Outbound where
  | notify (note : LspNotify)
  | request (serial : Nat) (token : ReqToken) (req : LspRequest Json)

inductive Pending where
  | handshake
  | feature (serial : Nat) (token : ReqToken) (req : LspRequest Json)

structure Server where
  id : Nat
  phase : Phase
  inbuf : List UInt8
  nextReqId : Int
  pending : List (Int × Pending)
  settings : Option Json
  pathStyle : Option PathStyle
  queued : List Outbound

/-- The JSON-RPC messages to a server. -/
inductive Message where
  | initializeRequest (id : Int) (params : Json)
  | initialized
  | didChangeConfiguration (settings : Json)
  | notification (note : LspNotify)
  | request (id : Int) (serial : Nat) (req : LspRequest Json)
  | shutdown (id : Int)
  | exit
  | response (id result : Json)
  | error (id error : Json)

inductive WireOp where
  | spawn (id : Nat) (program : String) (args : List String) (cwd : String)
      (env : List (String × String))
  | stdin (id : Nat) (message : Message)
  | kill (id : Nat)

inductive LspEvent (κ : Type) where
  | initialized (key : κ) (init : Json)
  | diagnostics (key : κ) (params : Json)
  | serverExited (key : κ) (message : String) (code signal : Option Int)
  | reply (key : κ) (token : ReqToken) (reply : LspReply Json)
  | log (key : κ) (params : Json)
  | progress (key : κ) (params : Json)
  | workspaceRefresh (key : κ) (kind : RefreshKind)
  | applyEdit (key : κ) (id : Nat) (label : Option String) (changes : Json)
  | registerCapability (key : κ) (registrations : List (String × String × Json))
  | unregisterCapability (key : κ) (ids : List String)

/-- How a reply came about. -/
inductive Origin where
  /-- The server's response with this id. -/
  | answered (rid : Int)
  /-- Its server was removed. -/
  | failed
  /-- A method outside the whitelist. -/
  | unsupported

/-- An event, with the server it is about and, for a reply, the request it settles. -/
structure Mark (κ : Type) where
  event : LspEvent κ
  server : Option Nat
  settles : Option (Nat × Origin)

/-- A request that was made while a server could take it, or refused at once. -/
structure Sent (κ : Type) where
  key : κ
  server : Option Nat
  token : ReqToken
  req : LspRequest Json

/-- A `workspace/applyEdit` the editor has not answered. -/
structure Apply (κ : Type) where
  id : Nat
  key : κ
  reqId : Json
  server : Nat

/-- The editor's commands to one server, in the terms of the wire. -/
inductive Command where
  | notify (note : LspNotify)
  | request (serial : Nat) (req : LspRequest Json)

structure Client (κ : Type) where
  servers : κ → Option Server
  byId : Nat → Option κ
  nextWireId : Nat
  wire : List WireOp
  marks : List (Mark κ)
  pendingApply : List (Apply κ)
  nextApplyId : Nat
  /-- Every request there was. -/
  sends : List (Sent κ)
  /-- The commands issued to each server. -/
  issued : List (Nat × Command)
  /-- The messages handled, by server. -/
  heard : List (Nat × Json)

variable {κ : Type}

def Client.new : Client κ where
  servers := fun _ => none
  byId := fun _ => none
  nextWireId := 1
  wire := []
  marks := []
  pendingApply := []
  nextApplyId := 1
  sends := []
  issued := []
  heard := []

/-- A request where it waits. -/
structure Ask where
  serial : Nat
  token : ReqToken
  req : LspRequest Json

def Pending.ask? : Pending → Option Ask
  | .handshake => none
  | .feature serial token req => some ⟨serial, token, req⟩

def Outbound.ask? : Outbound → Option Ask
  | .notify _ => none
  | .request serial token req => some ⟨serial, token, req⟩

def Outbound.command : Outbound → Command
  | .notify note => .notify note
  | .request serial _ req => .request serial req

/-- Bound on `queued`. -/
def queuedCap : Nat := 4096

section

variable [DecidableEq κ]

def Client.update (client : Client κ) (key : κ) (server : Server) : Client κ :=
  { client with
    servers := fun other => if other = key then some server else client.servers other }

/-- `servers.remove` and `by_id.remove`. -/
def Client.remove (client : Client κ) (key : κ) (server : Server) : Client κ :=
  { client with
    servers := fun other => if other = key then none else client.servers other
    byId := fun other => if other = server.id then none else client.byId other }

def Client.push (client : Client κ) (op : WireOp) : Client κ :=
  { client with wire := client.wire ++ [op] }

/-- An event of a live server that settles nothing. -/
def Client.emit (client : Client κ) (server : Nat) (event : LspEvent κ) : Client κ :=
  { client with marks := client.marks ++ [⟨event, some server, none⟩] }

/-! ### Sending -/

def Client.sendRequest (client : Client κ) (key : κ) (message : Int → Message)
    (pending : Pending) : Client κ :=
  match client.servers key with
  | some server =>
      (client.update key { server with
        nextReqId := server.nextReqId + 1
        pending := server.pending ++ [(server.nextReqId, pending)] }).push
          (.stdin server.id (message server.nextReqId))
  | none => client

/-- `send_notification`, `send_response` and `send_error`. -/
def Client.sendMessage (client : Client κ) (key : κ) (message : Message) : Client κ :=
  match client.servers key with
  | some server => client.push (.stdin server.id message)
  | none => client

def Client.sendOutbound (client : Client κ) (key : κ) : Outbound → Client κ
  | .notify note => client.sendMessage key (.notification note)
  | .request serial token req =>
      client.sendRequest key (fun rid => .request rid serial req) (.feature serial token req)

/-- `flush_queued`. -/
def Client.flushQueued (client : Client κ) (key : κ) : Client κ :=
  match client.servers key with
  | some server =>
      server.queued.foldl (fun client outbound => client.sendOutbound key outbound)
        (client.update key { server with queued := [] })
  | none => client

/-! ### Removal -/

/-- The requests that wait in a server, pending ones first. -/
def Server.asks (server : Server) : List Ask :=
  server.pending.filterMap (fun entry => entry.2.ask?) ++ server.queued.filterMap Outbound.ask?

/-- `fail_pending`. -/
def Client.failPending (client : Client κ) (key : κ) (server : Server) (reason : String) :
    Client κ :=
  { client with
    pendingApply := client.pendingApply.filter fun apply => decide (apply.key ≠ key)
    marks := client.marks ++ server.asks.map fun ask =>
      ⟨.reply key ask.token (transportError ask.req reason), some server.id,
        some (ask.serial, .failed)⟩ }

/-- `kill_wedged`. -/
def Client.killWedged (client : Client κ) (key : κ) (reason : String) : Client κ :=
  match client.servers key with
  | some server =>
      (((client.remove key server).push (.kill server.id)).emit server.id
        (.serverExited key s!"killed wedged server: {reason}" none none)).failPending key server
          reason
  | none => client

/-- `queue`: past the cap the server is killed, the command still pushed. -/
def Client.queue (client : Client κ) (key : κ) (outbound : Outbound) : Client κ :=
  match client.servers key with
  | some server =>
      let client' := client.update key { server with queued := server.queued ++ [outbound] }
      if queuedCap ≤ server.queued.length then
        client'.killWedged key "initialize never completed"
      else client'
  | none => client

/-! ### The editor's side -/

variable (codec : Codec κ)

def Client.ensureServer (client : Client κ) (key : κ) (spawn : ServerSpawn) : Client κ :=
  match client.servers key with
  | some _ => client
  | none =>
      ({ client with
          nextWireId := client.nextWireId + 1
          byId := fun other =>
            if other = client.nextWireId then some key else client.byId other
          servers := fun other =>
            if other = key then
              some ⟨client.nextWireId, .initializing, [], 1, [], spawn.settings, spawn.pathStyle, []⟩
            else client.servers other
          wire := client.wire ++ [WireOp.spawn client.nextWireId spawn.program spawn.args
            (spawn.cwd.getD "") spawn.env] }).sendRequest key
        (fun rid => .initializeRequest rid (codec.initParams key spawn)) .handshake

/-- The method is in the whitelist, when there is one to ask. -/
def supportedNote : LspNotify → Bool
  | .raw method _ => codec.dynNotifyMethods.contains method
  | _ => true

def Client.notify (client : Client κ) (key : κ) (note : LspNotify) : Client κ :=
  if supportedNote codec note then
    match client.servers key with
    | some server =>
        let client' := { client with issued := client.issued ++ [(server.id, Command.notify note)] }
        match server.phase with
        | .ready => client'.sendOutbound key (.notify note)
        | .initializing => client'.queue key (.notify note)
    | none => client
  else client

/-- The refusal of a raw request outside the whitelist. -/
def unsupported? : LspRequest Json → Option String
  | .raw method _ =>
      if codec.dynRequestMethods.contains method then none
      else some (s!"bemtvi: client:request: unsupported method '{method}' " ++
        "(add a row to lsp_dyn_request_rows! in bemtvi-lsp/src/protocol.rs)")
  | _ => none

def Client.request (client : Client κ) (key : κ) (token : ReqToken) (req : LspRequest Json) :
    Client κ :=
  match unsupported? codec req with
  | some why =>
      { client with
        sends := client.sends ++ [⟨key, none, token, req⟩]
        marks := client.marks ++ [⟨.reply key token (.raw (.error why)), none,
          some (client.sends.length, .unsupported)⟩] }
  | none =>
      match client.servers key with
      | some server =>
          let serial := client.sends.length
          let client' := { client with
            sends := client.sends ++ [Sent.mk key (some server.id) token req]
            issued := client.issued ++ [(server.id, Command.request serial req)] }
          match server.phase with
          | .ready => client'.sendOutbound key (.request serial token req)
          | .initializing => client'.queue key (.request serial token req)
      | none => client

def Client.shutdown (client : Client κ) (key : κ) : Client κ :=
  match client.servers key with
  | some server =>
      ((((client.push (.stdin server.id (.shutdown server.nextReqId))).push
        (.stdin server.id .exit)).remove key server).push (.kill server.id)).failPending key server
          "language server shut down"
  | none => client

/-- The `result` of the answer to a `workspace/applyEdit`. -/
def ApplyEditOutcome.result (outcome : ApplyEditOutcome) : Json :=
  .obj ([("applied", .bool outcome.applied)] ++
    (match outcome.failureReason with
      | some reason => [("failureReason", .str reason)]
      | none => []) ++
    match outcome.failedChange with
    | some index => [("failedChange", .int index)]
    | none => [])

def Client.applyEditResponse (client : Client κ) (id : Nat) (outcome : ApplyEditOutcome) :
    Client κ :=
  match client.pendingApply.find? (·.id == id) with
  | some apply =>
      { client with
        pendingApply := client.pendingApply.filter (·.id != id) }.sendMessage apply.key
          (.response apply.reqId outcome.result)
  | none => client

/-! ### The servers' side -/

/-- `Ok` of the `result` when there is no `error`, `Err` of its message when there is one. -/
def responseResult (msg : Json) : Except String Json :=
  match msg.get "error" with
  | some err => .error (errorMessage err)
  | none => .ok ((msg.get "result").getD .null)

/-- `distill`, and the raw replies it leaves to its callers. -/
def Codec.reply (codec : Codec κ) (req : LspRequest Json) :
    Except String Json → LspReply Json
  | .error error => transportError req error
  | .ok value =>
      match req with
      | .raw _ _ => .raw (.ok value)
      | _ => codec.distill req value

/-- `on_init_result`, the handshake taken off the pending table. -/
def Client.onInitResult (client : Client κ) (key : κ) (server : Server)
    (result : Except String Json) : Client κ :=
  match result.bind codec.readInit with
  | .error e =>
      (((client.remove key server).push (.kill server.id)).failPending key server
        "initialize failed").emit server.id (.serverExited key s!"initialize failed: {e}" none none)
  | .ok init =>
      let client := (client.emit server.id (.initialized key init)).sendMessage key .initialized
      let client :=
        match server.settings with
        | some settings => client.sendMessage key (.didChangeConfiguration settings)
        | none => client
      (client.update key { server with phase := .ready }).flushQueued key

/-- `on_response`. -/
def Client.onResponse (client : Client κ) (key : κ) (rid : Int) (result : Except String Json) :
    Client κ :=
  match client.servers key with
  | some server =>
      let server' := { server with pending := server.pending.filter (·.1 != rid) }
      match server.pending.find? (·.1 == rid) with
      | some (_, .handshake) => (client.update key server').onInitResult codec key server' result
      | some (_, .feature serial token req) =>
          let client := client.update key server'
          { client with marks := client.marks ++
              [⟨.reply key token (codec.reply req result), some server.id,
                some (serial, .answered rid)⟩] }
      | none => client
  | none => client

/-- The registrations of a `client/registerCapability`. -/
def registrations (params : Json) : List (String × String × Json) :=
  (((params.get "registrations").bind Json.asArray).getD []).filterMap fun reg => do
    let id ← (reg.get "id").bind Json.asStr
    let method ← (reg.get "method").bind Json.asStr
    some (id, method, (reg.get "registerOptions").getD .null)

/-- The ids of a `client/unregisterCapability`. -/
def unregistrations (params : Json) : List String :=
  (((params.get "unregisterations").bind Json.asArray).getD []).filterMap fun reg =>
    (reg.get "id").bind Json.asStr

/-- `on_server_request`. -/
def Client.onServerRequest (client : Client κ) (key : κ) (server : Server) (reqId : Json)
    (method : String) (msg : Json) : Client κ :=
  let params := (msg.get "params").getD .null
  match method with
  | "workspace/configuration" =>
      client.sendMessage key (.response reqId (.arr (codec.configurationReply server.settings params)))
  | "workspace/inlayHint/refresh" =>
      (client.emit server.id (.workspaceRefresh key .inlayHint)).sendMessage key
        (.response reqId .null)
  | "workspace/semanticTokens/refresh" =>
      (client.emit server.id (.workspaceRefresh key .semanticTokens)).sendMessage key
        (.response reqId .null)
  | "workspace/applyEdit" =>
      let label := (params.get "label").bind Json.asStr
      match codec.tryNormalizeWorkspaceEdit ((params.get "edit").getD .null) with
      | .ok changes =>
          { client with
            nextApplyId := client.nextApplyId + 1
            pendingApply := client.pendingApply ++
              [Apply.mk client.nextApplyId key reqId server.id] }.emit server.id
                (.applyEdit key client.nextApplyId label changes)
      | .error reason =>
          client.sendMessage key (.response reqId
            (.obj [("applied", .bool false), ("failureReason", .str reason)]))
  | "workspace/workspaceFolders" =>
      client.sendMessage key (.response reqId (codec.workspaceFolders key server.pathStyle))
  | "client/registerCapability" =>
      (client.emit server.id (.registerCapability key (registrations params))).sendMessage key
        (.response reqId .null)
  | "client/unregisterCapability" =>
      (client.emit server.id (.unregisterCapability key (unregistrations params))).sendMessage key
        (.response reqId .null)
  | "window/workDoneProgress/create" => client.sendMessage key (.response reqId .null)
  | _ =>
      client.sendMessage key (.error reqId (.obj [("code", .int (-32601)),
        ("message", .str s!"No such method: {method}"), ("data", .null)]))

/-- `on_server_notification`. -/
def Client.onServerNotification (client : Client κ) (key : κ) (server : Server)
    (method : String) (msg : Json) : Client κ :=
  match codec.notificationParams method ((msg.get "params").getD .null) with
  | some params =>
      match method with
      | "textDocument/publishDiagnostics" => client.emit server.id (.diagnostics key params)
      | "window/showMessage" => client.emit server.id (.log key params)
      | "$/progress" => client.emit server.id (.progress key params)
      | _ => client
  | none => client

/-- `handle_message`. -/
def Client.handleMessage (client : Client κ) (key : κ) (msg : Json) : Client κ :=
  match client.servers key with
  | some server =>
      let client := { client with heard := client.heard ++ [(server.id, msg)] }
      match (msg.get "method").bind Json.asStr, msg.get "id" with
      | some method, some reqId => client.onServerRequest codec key server reqId method msg
      | some method, none => client.onServerNotification codec key server method msg
      | none, some reqId =>
          match reqId.asI64 with
          | some rid => client.onResponse codec key rid (responseResult msg)
          | none => client
      | none, none => client
  | none => client

def Client.handleAll (client : Client κ) (key : κ) (msgs : List Json) : Client κ :=
  msgs.foldl (fun client msg => client.handleMessage codec key msg) client

def Client.feedStdout (client : Client κ) (id : Nat) (bytes : List UInt8) : Client κ :=
  match client.byId id with
  | some key =>
      match client.servers key with
      | some server =>
          let parsed := parseFrames codec.fromSlice (server.inbuf ++ bytes)
          (client.update key { server with inbuf := parsed.2 }).handleAll codec key parsed.1
      | none => client
  | none => client

def Client.exited (client : Client κ) (id : Nat) (code signal : Option Int) : Client κ :=
  match client.byId id with
  | some key =>
      let client' :=
        match client.servers key with
        | some server => (client.remove key server).failPending key server "language server exited"
        | none => { client with byId := fun other => if other = id then none else client.byId other }
      client'.emit id (.serverExited key "language server exited" code signal)
  | none => client

/-! ### Events -/

inductive Event (κ : Type) where
  | ensureServer (key : κ) (spawn : ServerSpawn)
  | notify (key : κ) (note : LspNotify)
  | request (key : κ) (token : ReqToken) (req : LspRequest Json)
  | shutdown (key : κ)
  | applyEditResponse (id : Nat) (outcome : ApplyEditOutcome)
  | feedStdout (id : Nat) (bytes : List UInt8)
  | exited (id : Nat) (code signal : Option Int)

def step (client : Client κ) : Event κ → Option (Client κ)
  | .ensureServer key spawn => some (client.ensureServer codec key spawn)
  | .notify key note => some (client.notify codec key note)
  | .request key token req => some (client.request codec key token req)
  | .shutdown key => some (client.shutdown key)
  | .applyEditResponse id outcome => some (client.applyEditResponse id outcome)
  | .feedStdout id bytes => some (client.feedStdout codec id bytes)
  | .exited id code signal => some (client.exited id code signal)

/-- The response is to a request that waits, and its `error` is there and `null`. -/
def NullError (client : Client κ) (key : κ) (msg : Json) : Prop :=
  ∃ server reqId rid, client.servers key = some server ∧
    (msg.get "method").bind Json.asStr = none ∧ msg.get "id" = some reqId ∧
    reqId.asI64 = some rid ∧ (∃ pending, (rid, pending) ∈ server.pending) ∧
    msg.get "error" = some .null

/-- None of the messages, taken one after the other, is such a response. -/
def NoNullError : Client κ → κ → List Json → Prop
  | _, _, [] => True
  | client, key, msg :: rest =>
      ¬ NullError client key msg ∧ NoNullError (client.handleMessage codec key msg) key rest

/-- The command would overflow the queue of a server in its handshake, with a request in it. -/
def Overflows (client : Client κ) (key : κ) (isRequest : Prop) : Prop :=
  ∃ server, client.servers key = some server ∧ server.phase = .initializing ∧
    queuedCap ≤ server.queued.length ∧
    (isRequest ∨ ∃ serial token req, .request serial token req ∈ server.queued)

/-- No overflow kill with a request queued, and no response with a `null` error to a request. -/
def Meets (client : Client κ) : Event κ → Prop
  | .notify key note => supportedNote codec note = true → ¬ Overflows client key False
  | .request key _ req => unsupported? codec req = none → ¬ Overflows client key True
  | .feedStdout id bytes =>
      ∀ key server, client.byId id = some key → client.servers key = some server →
        let parsed := parseFrames codec.fromSlice (server.inbuf ++ bytes)
        NoNullError codec (client.update key { server with inbuf := parsed.2 }) key parsed.1
  | _ => True

end

end Bemtvi.Lsp.SyncClient
