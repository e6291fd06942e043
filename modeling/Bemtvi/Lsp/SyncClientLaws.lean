/-
Module: Bemtvi.Lsp.SyncClientLaws
Purpose: What every run of the synchronous client keeps: the two registries agree, each request
  waits in its live server or is settled once, commands reach the wire in order behind
  `initialized`, and a removed server is not heard of again.
Trusted boundary: none
Main exports: Registry, Wired, Booked, Told, Kept, step_kept, client_settles_once,
  null_error_fails
-/
import Bemtvi.Lib.Tickets
import Bemtvi.Lsp.SyncClient

namespace Bemtvi.Lsp.SyncClient

open Bemtvi.Run (run run_along Along Lawful lawful_nil lawful_concat lawful_append)
open Bemtvi.Tickets (Book)

variable {κ : Type}

/-! ### Servers by wire id -/

/-- The live server with this wire id. -/
def Client.live (client : Client κ) (id : Nat) : Option (κ × Server) :=
  match client.byId id with
  | some key => (client.servers key).map fun server => (key, server)
  | none => none

/-- The two registries name the same servers. -/
structure Registry (client : Client κ) : Prop where
  registered : ∀ key server, client.servers key = some server →
    client.byId server.id = some key
  routed : ∀ id key, client.byId id = some key →
    ∃ server, client.servers key = some server ∧ server.id = id
  minted : ∀ id, client.nextWireId ≤ id → client.byId id = none

variable {client next : Client κ}

theorem Registry.live_of (registry : Registry client) {key : κ} {server : Server}
    (found : client.servers key = some server) : client.live server.id = some (key, server) := by
  unfold Client.live
  rw [registry.registered key server found]
  simp only [found, Option.map_some]

theorem Registry.unlisted (registry : Registry client) :
    client.live client.nextWireId = none := by
  unfold Client.live
  rw [registry.minted client.nextWireId (Nat.le_refl _)]

theorem Registry.congr (registry : Registry client) (servers : next.servers = client.servers)
    (byId : next.byId = client.byId) (minted : next.nextWireId = client.nextWireId) :
    Registry next := by
  constructor
  · rw [servers, byId]
    exact registry.registered
  · rw [servers, byId]
    exact registry.routed
  · rw [byId, minted]
    exact registry.minted

theorem live_congr (servers : next.servers = client.servers)
    (byId : next.byId = client.byId) : next.live = client.live := by
  funext id
  unfold Client.live
  rw [servers, byId]

/-- One server of `live` has changed, or is gone. -/
def Moved (live live' : Nat → Option (κ × Server)) (id : Nat) (now : Option (κ × Server)) :
    Prop :=
  ∀ other, live' other = if other = id then now else live other

variable {other : Nat} {ops : List WireOp} {outbound : Outbound} {command : Command}
  {said : List (Mark κ)} {req : LspRequest Json}

/-- Who is live after a move: the server that moved, or one that was live. -/
theorem Moved.live_cases {live live' : Nat → Option (κ × Server)} {id : Nat} {key key' : κ}
    {server server' : Server} (moved : Moved live live' id (some (key, server)))
    (there : live' other = some (key', server')) : (other = id ∧ key' = key ∧ server' = server) ∨
      (other ≠ id ∧ live other = some (key', server')) := by
  rw [moved other] at there
  split at there
  · next own =>
      cases there
      exact Or.inl ⟨own, rfl, rfl⟩
  · next own => exact Or.inr ⟨own, there⟩

/-- The dead stay dead where a live server moves. -/
theorem Moved.dead {live live' : Nat → Option (κ × Server)} {id : Nat} {was now : κ × Server}
    (moved : Moved live live' id (some now)) (there : live id = some was)
    (dead : live other = none) : live' other = none := by
  by_cases own : other = id
  · rw [own, there] at dead
    cases dead
  · exact (moved other).trans ((if_neg own).trans dead)

/-- A server keeps its key where it moves, and so do the others. -/
theorem Moved.keyed {live live' : Nat → Option (κ × Server)} {id : Nat} {key key' : κ}
    {server server' : Server} (moved : Moved live live' id (some (key, server')))
    (there : live id = some (key, server)) (its : ∃ server, live other = some (key', server)) :
    ∃ server, live' other = some (key', server) := by
  obtain ⟨other_server, its⟩ := its
  by_cases own : other = id
  · rw [own, there] at its
    cases its
    exact ⟨server', (moved other).trans (if_pos own)⟩
  · exact ⟨other_server, (moved other).trans ((if_neg own).trans its)⟩

section

variable [DecidableEq κ]

variable {key : κ} {server : Server}

theorem update_registry {server' : Server} (registry : Registry client)
    (found : client.servers key = some server) (same : server'.id = server.id) :
    Registry (client.update key server') := by
  constructor
  · intro key' server'' there
    by_cases own : key' = key
    · have now : server' = server'' := Option.some.inj ((if_pos own).symm.trans there)
      rw [← now, same, own]
      exact registry.registered key server found
    · exact registry.registered key' server'' ((if_neg own).symm.trans there)
  · intro id key' routed
    rcases registry.routed id key' routed with ⟨server'', there, its⟩
    by_cases own : key' = key
    · refine ⟨server', if_pos own, ?_⟩
      rw [own, found] at there
      cases there
      exact same.trans its
    · exact ⟨server'', (if_neg own).trans there, its⟩
  · exact registry.minted

theorem update_moved {server' : Server} (registry : Registry client)
    (found : client.servers key = some server) :
    Moved client.live (client.update key server').live server.id (some (key, server')) := by
  intro id
  by_cases own : id = server.id
  · rw [if_pos own, own]
    unfold Client.live
    have routed : (client.update key server').byId server.id = some key :=
      registry.registered key server found
    have there : (client.update key server').servers key = some server' := if_pos rfl
    simp only [routed, there, Option.map_some]
  · rw [if_neg own]
    unfold Client.live
    have same : (client.update key server').byId id = client.byId id := rfl
    rw [same]
    cases routed : client.byId id with
    | none => rfl
    | some key' =>
        have other : key' ≠ key := by
          rintro rfl
          rcases registry.routed id key' routed with ⟨server'', there, its⟩
          rw [found] at there
          cases there
          exact own its.symm
        have unchanged : (client.update key server').servers key' = client.servers key' :=
          if_neg other
        simp only [unchanged]

theorem remove_registry (registry : Registry client) (found : client.servers key = some server) :
    Registry (client.remove key server) := by
  have its := registry.registered key server found
  constructor
  · intro key' server' there
    by_cases own : key' = key
    · cases (if_pos own).symm.trans there
    · have there' : client.servers key' = some server' := (if_neg own).symm.trans there
      have routed := registry.registered key' server' there'
      have other : server'.id ≠ server.id := by
        intro same
        rw [same, its] at routed
        exact own (Option.some.inj routed).symm
      exact (if_neg other).trans routed
  · intro id key' routed
    by_cases own : id = server.id
    · cases (if_pos own).symm.trans routed
    · have routed' : client.byId id = some key' := (if_neg own).symm.trans routed
      rcases registry.routed id key' routed' with ⟨server', there, same⟩
      have other : key' ≠ key := by
        rintro rfl
        rw [found] at there
        cases there
        exact own same.symm
      exact ⟨server', (if_neg other).trans there, same⟩
  · intro id past
    by_cases own : id = server.id
    · exact if_pos own
    · exact (if_neg own).trans (registry.minted id past)

theorem remove_moved (registry : Registry client) (found : client.servers key = some server) :
    Moved client.live (client.remove key server).live server.id none := by
  intro id
  by_cases own : id = server.id
  · rw [if_pos own, own]
    unfold Client.live
    have gone : (client.remove key server).byId server.id = none := if_pos rfl
    rw [gone]
  · rw [if_neg own]
    unfold Client.live
    have same : (client.remove key server).byId id = client.byId id := if_neg own
    rw [same]
    cases routed : client.byId id with
    | none => rfl
    | some key' =>
        have other : key' ≠ key := by
          rintro rfl
          rcases registry.routed id key' routed with ⟨server', there, its⟩
          rw [found] at there
          cases there
          exact own its.symm
        have unchanged : (client.remove key server).servers key' = client.servers key' :=
          if_neg other
        simp only [unchanged]

end

/-! ### The wire -/

def WireOp.server : WireOp → Nat
  | .spawn id _ _ _ _ | .stdin id _ | .kill id => id

/-- The editor's command an operation carries, and to whom. -/
def WireOp.command? : WireOp → Option (Nat × Command)
  | .stdin id (.notification note) => some (id, .notify note)
  | .stdin id (.request _ serial req) => some (id, .request serial req)
  | _ => none

/-- The commands of one server, in order. -/
def commandsTo (id : Nat) (commands : List (Nat × Command)) : List Command :=
  commands.filterMap fun command => if command.1 = id then some command.2 else none

/-- The commands that reached a server's wire. -/
def sentTo (id : Nat) (wire : List WireOp) : List Command :=
  commandsTo id (wire.filterMap WireOp.command?)

/-- A command comes behind its server's `initialized`. -/
def Begun (before : List WireOp) (op : WireOp) : Prop :=
  ∀ id command, op.command? = some (id, command) → .stdin id .initialized ∈ before

@[simp] theorem commandsTo_append (id : Nat) (front back : List (Nat × Command)) :
    commandsTo id (front ++ back) = commandsTo id front ++ commandsTo id back :=
  List.filterMap_append

@[simp] theorem sentTo_append (id : Nat) (front back : List WireOp) :
    sentTo id (front ++ back) = sentTo id front ++ sentTo id back := by
  unfold sentTo
  rw [List.filterMap_append, commandsTo_append]

theorem commandsTo_own (id : Nat) (command : Command) :
    commandsTo id [(id, command)] = [command] := by
  simp [commandsTo]

theorem commandsTo_other {id : Nat} (command : Command) (differs : id ≠ other) :
    commandsTo other [(id, command)] = [] := by
  simp [commandsTo, differs]

/-- The wire, the commands issued and the tables of the live servers fit together; `hand` holds
commands taken off a queue and not yet sent. -/
structure Wired (live : Nat → Option (κ × Server)) (hand : Nat → List Outbound)
    (wire : List WireOp) (issued : List (Nat × Command)) (minted : Nat) : Prop where
  old : ∀ op ∈ wire, op.server < minted
  issuedOld : ∀ command ∈ issued, command.1 < minted
  order : ∀ id key server, live id = some (key, server) →
    sentTo id wire ++ (server.queued ++ hand id).map Outbound.command = commandsTo id issued
  short : ∀ id, List.IsPrefix (sentTo id wire) (commandsTo id issued)
  ready : ∀ id key server, live id = some (key, server) → server.phase = .ready →
    .stdin id .initialized ∈ wire
  young : ∀ id key server, live id = some (key, server) → server.phase = .initializing →
    ∀ entry ∈ server.pending, entry.2 = .handshake
  begun : Lawful Begun wire
  counted : ∀ id key server rid serial req, live id = some (key, server) →
    .stdin id (.request rid serial req) ∈ wire → rid < server.nextReqId
  single : ∀ id rid serial req serial' req', .stdin id (.request rid serial req) ∈ wire →
    .stdin id (.request rid serial' req') ∈ wire → serial = serial' ∧ req = req'
  pended : ∀ id key server, live id = some (key, server) →
    ∀ entry ∈ server.pending, entry.1 < server.nextReqId
  distinct : ∀ id key server, live id = some (key, server) →
    (server.pending.map Prod.fst).Nodup
  carried : ∀ id key server rid serial token req, live id = some (key, server) →
    (rid, .feature serial token req) ∈ server.pending → .stdin id (.request rid serial req) ∈ wire

variable {live live' : Nat → Option (κ × Server)} {hand hand' : Nat → List Outbound}
  {wire : List WireOp} {issued : List (Nat × Command)} {minted : Nat}

/-- What a server may become when nothing is sent from it: requests only leave its table. -/
structure Settled (wire : List WireOp) (id : Nat) (hand hand' : List Outbound)
    (server server' : Server) : Prop where
  queue : (server'.queued ++ hand').map Outbound.command =
    (server.queued ++ hand).map Outbound.command
  pending : List.Sublist server'.pending server.pending
  next : server.nextReqId ≤ server'.nextReqId
  phase : server'.phase = server.phase ∨
    (server'.phase = .ready ∧ .stdin id .initialized ∈ wire)

/-- A step that sends no command. -/
theorem Wired.still (wired : Wired live hand wire issued minted)
    (servers : ∀ id key server', live' id = some (key, server') →
      ∃ server, live id = some (key, server) ∧
        Settled (wire ++ ops) id (hand id) (hand' id) server server')
    (own : ∀ op ∈ ops, op.server < minted) (quiet : ∀ op ∈ ops, op.command? = none) :
    Wired live' hand' (wire ++ ops) issued minted := by
  have none_sent : ∀ id, sentTo id ops = [] := by
    intro id
    have nothing : ops.filterMap WireOp.command? = [] := List.filterMap_eq_nil_iff.2 quiet
    unfold sentTo
    rw [nothing]
    rfl
  have unasked : ∀ id rid serial req, .stdin id (.request rid serial req) ∈ wire ++ ops →
      .stdin id (.request rid serial req) ∈ wire := by
    intro id rid serial req member
    rcases List.mem_append.1 member with old | new
    · exact old
    · cases quiet _ new
  constructor
  · intro op member
    rcases List.mem_append.1 member with before | new
    · exact wired.old op before
    · exact own op new
  · exact wired.issuedOld
  · intro id key server' there
    rcases servers id key server' there with ⟨server, was, settled⟩
    rw [sentTo_append, none_sent, List.append_nil, settled.queue]
    exact wired.order id key server was
  · intro id
    rw [sentTo_append, none_sent, List.append_nil]
    exact wired.short id
  · intro id key server' there isReady
    rcases servers id key server' there with ⟨server, was, settled⟩
    rcases settled.phase with same | ⟨-, sent⟩
    · exact List.mem_append.2 (Or.inl (wired.ready id key server was (same.symm.trans isReady)))
    · exact sent
  · intro id key server' there isYoung entry member
    rcases servers id key server' there with ⟨server, was, settled⟩
    rcases settled.phase with same | ⟨nowReady, -⟩
    · exact wired.young id key server was (same.symm.trans isYoung) entry
        (settled.pending.subset member)
    · rw [nowReady] at isYoung
      cases isYoung
  · apply lawful_append wired.begun
    intro before op after whole id command carries
    rw [quiet op (by rw [whole]; exact List.mem_append.2 (Or.inr (List.mem_cons_self ..)))] at carries
    cases carries
  · intro id key server' rid serial req there member
    rcases servers id key server' there with ⟨server, was, settled⟩
    exact Int.lt_of_lt_of_le
      (wired.counted id key server rid serial req was (unasked _ _ _ _ member)) settled.next
  · intro id rid serial req serial' req' member member'
    exact wired.single id rid serial req serial' req' (unasked _ _ _ _ member)
      (unasked _ _ _ _ member')
  · intro id key server' there entry member
    rcases servers id key server' there with ⟨server, was, settled⟩
    exact Int.lt_of_lt_of_le (wired.pended id key server was entry (settled.pending.subset member))
      settled.next
  · intro id key server' there
    rcases servers id key server' there with ⟨server, was, settled⟩
    exact (wired.distinct id key server was).sublist (settled.pending.map Prod.fst)
  · intro id key server' rid serial token req there member
    rcases servers id key server' there with ⟨server, was, settled⟩
    exact List.mem_append.2 (Or.inl
      (wired.carried id key server rid serial token req was (settled.pending.subset member)))

/-- The editor issues a command to a server, which holds it back. -/
theorem Wired.issue {id : Nat} (wired : Wired live hand wire issued minted)
    (servers : ∀ other key server', live' other = some (key, server') →
      ∃ server, live other = some (key, server) ∧ server'.pending = server.pending ∧
        server'.nextReqId = server.nextReqId ∧ server'.phase = server.phase ∧
        (server'.queued ++ hand' other).map Outbound.command =
          (server.queued ++ hand other).map Outbound.command ++
            if other = id then [outbound.command] else []) (bound : id < minted) :
    Wired live' hand' wire (issued ++ [(id, outbound.command)]) minted := by
  constructor
  · exact wired.old
  · intro command member
    rcases List.mem_append.1 member with before | new
    · exact wired.issuedOld command before
    · rw [List.mem_singleton.1 new]
      exact bound
  · intro other key server' found
    rcases servers other key server' found with ⟨server, was, -, -, -, queue⟩
    rw [queue, ← List.append_assoc, wired.order other key server was, commandsTo_append]
    by_cases own : other = id
    · rw [if_pos own, own, commandsTo_own]
    · rw [if_neg own, commandsTo_other _ (Ne.symm own)]
  · intro other
    rw [commandsTo_append]
    exact (wired.short other).trans (List.prefix_append ..)
  · intro other key server' found isReady
    rcases servers other key server' found with ⟨server, was, -, -, phase, -⟩
    exact wired.ready other key server was (phase ▸ isReady)
  · intro other key server' found isYoung
    rcases servers other key server' found with ⟨server, was, pending, -, phase, -⟩
    rw [pending]
    exact wired.young other key server was (phase ▸ isYoung)
  · exact wired.begun
  · intro other key server' rid serial req found member
    rcases servers other key server' found with ⟨server, was, -, next, -, -⟩
    rw [next]
    exact wired.counted other key server rid serial req was member
  · exact wired.single
  · intro other key server' found
    rcases servers other key server' found with ⟨server, was, pending, next, -, -⟩
    rw [pending, next]
    exact wired.pended other key server was
  · intro other key server' found
    rcases servers other key server' found with ⟨server, was, pending, -, -, -⟩
    rw [pending]
    exact wired.distinct other key server was
  · intro other key server' rid serial token req found
    rcases servers other key server' found with ⟨server, was, pending, -, -, -⟩
    rw [pending]
    exact wired.carried other key server rid serial token req was

/-- What a ready server becomes when it is sent a command, and the message. -/
def Server.dispatch (server : Server) : Outbound → Server × Message
  | .notify note => (server, .notification note)
  | .request serial token req =>
      ({ server with
          nextReqId := server.nextReqId + 1
          pending := server.pending ++ [(server.nextReqId, .feature serial token req)] },
        .request server.nextReqId serial req)

theorem dispatch_command (server : Server) (outbound : Outbound) (id : Nat) :
    (WireOp.stdin id (server.dispatch outbound).2).command? = some (id, outbound.command) := by
  cases outbound <;> rfl

theorem dispatch_queued (server : Server) (outbound : Outbound) :
    (server.dispatch outbound).1.queued = server.queued := by
  cases outbound <;> rfl

theorem dispatch_phase (server : Server) (outbound : Outbound) :
    (server.dispatch outbound).1.phase = server.phase := by
  cases outbound <;> rfl

theorem dispatch_id (server : Server) (outbound : Outbound) :
    (server.dispatch outbound).1.id = server.id := by
  cases outbound <;> rfl

theorem sentTo_own (id : Nat) {op : WireOp} (carries : op.command? = some (id, command)) :
    sentTo id [op] = [command] := by
  simp [sentTo, carries, commandsTo_own]

theorem sentTo_other {id : Nat} {op : WireOp} (carries : op.command? = some (id, command))
    (differs : id ≠ other) : sentTo other [op] = [] := by
  simp [sentTo, carries, commandsTo_other _ differs]

/-- The next command in hand is sent. -/
theorem Wired.send {id : Nat} {key : κ} {server : Server} {rest : List Outbound}
    (wired : Wired live hand wire issued minted) (found : live id = some (key, server))
    (moved : Moved live live' id (some (key, (server.dispatch outbound).1)))
    (ready : server.phase = .ready) (empty : server.queued = [])
    (head : hand id = outbound :: rest) (rests : hand' id = rest)
    (others : ∀ other, other ≠ id → hand' other = hand other) (bound : id < minted) :
    Wired live' hand' (wire ++ [.stdin id (server.dispatch outbound).2]) issued minted := by
  have carries := dispatch_command server outbound id
  have sent := wired.ready id key server found ready
  have order := wired.order id key server found
  rw [empty, head, List.nil_append, List.map_cons] at order
  have next_le : server.nextReqId ≤ (server.dispatch outbound).1.nextReqId := by
    cases outbound with
    | notify note => exact Int.le_refl _
    | request serial token req => exact Int.le_of_lt (Int.lt_succ _)
  constructor
  · intro op member
    rcases List.mem_append.1 member with before | new
    · exact wired.old op before
    · rw [List.mem_singleton.1 new]
      exact bound
  · exact wired.issuedOld
  · intro other key' server' there
    rcases moved.live_cases there with ⟨rfl, rfl, rfl⟩ | ⟨own, was⟩
    · rw [sentTo_append, sentTo_own _ carries, dispatch_queued, empty, rests, List.nil_append,
        List.append_assoc]
      exact order
    · rw [sentTo_append, sentTo_other carries (Ne.symm own), List.append_nil, others other own]
      exact wired.order other key' server' was
  · intro other
    rw [sentTo_append]
    by_cases own : other = id
    · rw [own, sentTo_own _ carries, ← order]
      exact ⟨rest.map Outbound.command, by rw [List.append_assoc]; rfl⟩
    · rw [sentTo_other carries (Ne.symm own), List.append_nil]
      exact wired.short other
  · intro other key' server' there isReady
    apply List.mem_append.2
    left
    rcases moved.live_cases there with ⟨rfl, -, -⟩ | ⟨-, was⟩
    · exact sent
    · exact wired.ready other key' server' was isReady
  · intro other key' server' there isYoung
    rcases moved.live_cases there with ⟨-, -, rfl⟩ | ⟨-, was⟩
    · rw [dispatch_phase, ready] at isYoung
      cases isYoung
    · exact wired.young other key' server' was isYoung
  · refine lawful_concat.2 ⟨wired.begun, ?_⟩
    intro other command carries'
    rw [carries] at carries'
    cases carries'
    exact sent
  · intro other key' server' rid serial req there member
    rcases moved.live_cases there with ⟨rfl, -, rfl⟩ | ⟨own, was⟩
    · rcases List.mem_append.1 member with before | new
      · exact Int.lt_of_lt_of_le (wired.counted other key server rid serial req found before)
          next_le
      · cases outbound with
        | notify note => cases List.mem_singleton.1 new
        | request serial' token req' =>
            cases List.mem_singleton.1 new
            exact Int.lt_succ _
    · rcases List.mem_append.1 member with before | new
      · exact wired.counted other key' server' rid serial req was before
      · exact absurd (congrArg WireOp.server (List.mem_singleton.1 new)) own
  · intro other rid serial req serial' req' member member'
    have clash : ∀ {serial req serial' req'}, .stdin other (.request rid serial req) ∈ wire →
        WireOp.stdin other (.request rid serial' req') =
          .stdin id (server.dispatch outbound).2 → False := by
      intro serial req serial' req' before new
      cases outbound with
      | notify note => cases new
      | request serial'' token req'' =>
          cases new
          exact Int.lt_irrefl _ (wired.counted _ key server _ serial req found before)
    rcases List.mem_append.1 member with before | new
    · rcases List.mem_append.1 member' with before' | new'
      · exact wired.single other rid serial req serial' req' before before'
      · exact (clash before (List.mem_singleton.1 new')).elim
    · rcases List.mem_append.1 member' with before' | new'
      · exact (clash before' (List.mem_singleton.1 new)).elim
      · have same := (List.mem_singleton.1 new).trans (List.mem_singleton.1 new').symm
        cases same
        exact ⟨rfl, rfl⟩
  · intro other key' server' there entry member
    rcases moved.live_cases there with ⟨rfl, -, rfl⟩ | ⟨-, was⟩
    · cases outbound with
      | notify note => exact wired.pended other key server found entry member
      | request serial token req =>
          rcases List.mem_append.1 member with before | new
          · exact Int.lt_of_lt_of_le (wired.pended other key server found entry before) next_le
          · rw [List.mem_singleton.1 new]
            exact Int.lt_succ _
    · exact wired.pended other key' server' was entry member
  · intro other key' server' there
    rcases moved.live_cases there with ⟨rfl, -, rfl⟩ | ⟨-, was⟩
    · have distinct := wired.distinct other key server found
      cases outbound with
      | notify note => exact distinct
      | request serial token req =>
          have fresh : server.nextReqId ∉ server.pending.map Prod.fst := by
            intro member
            rcases List.mem_map.1 member with ⟨entry, inside, same⟩
            have below := wired.pended other key server found entry inside
            rw [same] at below
            exact Int.lt_irrefl _ below
          have grown : ((server.dispatch (.request serial token req)).1.pending.map Prod.fst) =
              server.pending.map Prod.fst ++ [server.nextReqId] := List.map_append
          rw [grown]
          exact List.nodup_append.2 ⟨distinct, List.nodup_singleton _, by
            intro one inside two new same
            rw [List.mem_singleton.1 new] at same
            exact fresh (same ▸ inside)⟩
    · exact wired.distinct other key' server' was
  · intro other key' server' rid serial token req there member
    apply List.mem_append.2
    rcases moved.live_cases there with ⟨rfl, -, rfl⟩ | ⟨-, was⟩
    · cases outbound with
      | notify note =>
          exact Or.inl (wired.carried other key server rid serial token req found member)
      | request serial' token' req' =>
          rcases List.mem_append.1 member with before | new
          · exact Or.inl (wired.carried other key server rid serial token req found before)
          · cases List.mem_singleton.1 new
            exact Or.inr (List.mem_cons_self ..)
    · exact Or.inl (wired.carried other key' server' rid serial token req was member)

/-- A server starts: its process, and the handshake's request. -/
theorem Wired.birth {key : κ} {server : Server} {program : String} {args : List String}
    {cwd : String} {env : List (String × String)} {params : Json}
    (wired : Wired live hand wire issued minted)
    (moved : Moved live live' minted (some (key, server))) (empty : server.queued = [])
    (young : server.phase = .initializing) (first : server.pending = [(1, .handshake)])
    (counted : server.nextReqId = 2) (free : hand minted = []) :
    Wired live' hand (wire ++ [.spawn minted program args cwd env,
      .stdin minted (.initializeRequest 1 params)]) issued (minted + 1) := by
  have unsent : sentTo minted wire = [] := by
    unfold sentTo commandsTo
    apply List.filterMap_eq_nil_iff.2
    intro command member
    rcases List.mem_filterMap.1 member with ⟨op, there, carries⟩
    have bound := wired.old op there
    apply if_neg
    intro same
    have its : op.server = command.1 := by
      cases op with
      | spawn id program args cwd env => cases carries
      | kill id => cases carries
      | stdin id message =>
          cases message <;> first | cases carries; rfl | cases carries
    omega
  have unissued : commandsTo minted issued = [] := by
    unfold commandsTo
    apply List.filterMap_eq_nil_iff.2
    intro command member
    apply if_neg
    have bound := wired.issuedOld command member
    omega
  have quiet : ∀ id, sentTo id [.spawn minted program args cwd env,
      .stdin minted (.initializeRequest 1 params)] = [] := fun _ => rfl
  have older : ∀ {op : WireOp}, op ∈ wire → op ∈ wire ++ [.spawn minted program args cwd env,
      .stdin minted (.initializeRequest 1 params)] := fun member => List.mem_append.2 (Or.inl member)
  have asked : ∀ {id rid serial req}, .stdin id (.request rid serial req) ∈
      wire ++ [.spawn minted program args cwd env, .stdin minted (.initializeRequest 1 params)] →
      .stdin id (.request rid serial req) ∈ wire := by
    intro id rid serial req member
    rcases List.mem_append.1 member with before | new
    · exact before
    · rcases List.mem_cons.1 new with same | later
      · cases same
      · cases List.mem_singleton.1 later
  constructor
  · intro op member
    rcases List.mem_append.1 member with before | new
    · exact Nat.lt_succ_of_lt (wired.old op before)
    · rcases List.mem_cons.1 new with same | later
      · rw [same]
        exact Nat.lt_succ_self _
      · rw [List.mem_singleton.1 later]
        exact Nat.lt_succ_self _
  · intro command member
    exact Nat.lt_succ_of_lt (wired.issuedOld command member)
  · intro other key' server' there
    rw [sentTo_append, quiet, List.append_nil]
    rcases moved.live_cases there with ⟨rfl, -, rfl⟩ | ⟨-, was⟩
    · rw [unsent, unissued, empty, free]
      rfl
    · exact wired.order other key' server' was
  · intro other
    rw [sentTo_append, quiet, List.append_nil]
    exact wired.short other
  · intro other key' server' there isReady
    rcases moved.live_cases there with ⟨-, -, rfl⟩ | ⟨-, was⟩
    · rw [young] at isReady
      cases isReady
    · exact older (wired.ready other key' server' was isReady)
  · intro other key' server' there isYoung
    rcases moved.live_cases there with ⟨-, -, rfl⟩ | ⟨-, was⟩
    · intro entry member
      rw [first] at member
      rw [List.mem_singleton.1 member]
    · exact wired.young other key' server' was isYoung
  · apply lawful_append wired.begun
    intro before op after whole id command carries
    have member : op ∈ [WireOp.spawn minted program args cwd env,
        .stdin minted (.initializeRequest 1 params)] := by
      rw [whole]
      exact List.mem_append.2 (Or.inr (List.mem_cons_self ..))
    rcases List.mem_cons.1 member with same | later
    · rw [same] at carries
      cases carries
    · rw [List.mem_singleton.1 later] at carries
      cases carries
  · intro other key' server' rid serial req there member
    rcases moved.live_cases there with ⟨rfl, -, rfl⟩ | ⟨-, was⟩
    · have bound := wired.old _ (asked member)
      exact absurd bound (Nat.lt_irrefl _)
    · exact wired.counted other key' server' rid serial req was (asked member)
  · intro other rid serial req serial' req' member member'
    exact wired.single other rid serial req serial' req' (asked member) (asked member')
  · intro other key' server' there entry member
    rcases moved.live_cases there with ⟨-, -, rfl⟩ | ⟨-, was⟩
    · rw [first] at member
      rw [List.mem_singleton.1 member, counted]
      decide
    · exact wired.pended other key' server' was entry member
  · intro other key' server' there
    rcases moved.live_cases there with ⟨-, -, rfl⟩ | ⟨-, was⟩
    · rw [first]
      exact List.nodup_singleton _
    · exact wired.distinct other key' server' was
  · intro other key' server' rid serial token req there member
    rcases moved.live_cases there with ⟨-, -, rfl⟩ | ⟨-, was⟩
    · rw [first] at member
      cases List.mem_singleton.1 member
    · exact older (wired.carried other key' server' rid serial token req was member)

/-! ### Requests -/

/-- What waits at a live server, in its tables or in hand. -/
def asksAt (live : Nat → Option (κ × Server)) (hand : Nat → List Outbound) (id : Nat) :
    List (κ × Ask) :=
  match live id with
  | some (key, server) =>
      (server.asks ++ (hand id).filterMap Outbound.ask?).map fun ask => (key, ask)
  | none => []

def heldBy (live : Nat → Option (κ × Server)) (hand : Nat → List Outbound) :
    Option Nat → List Nat
  | some id => (asksAt live hand id).map fun entry => entry.2.serial
  | none => []

/-- What is held apart from one server is what was, where the asks are what they were. -/
theorem heldBy_elsewhere {live live' : Nat → Option (κ × Server)} {hand hand' : Nat → List Outbound}
    {id : Nat} (others : ∀ other, other ≠ id → asksAt live' hand' other = asksAt live hand other) :
    ∀ other, other ≠ some id → heldBy live' hand' other = heldBy live hand other := by
  intro other differs
  cases other with
  | none => rfl
  | some other =>
      have elsewhere : other ≠ id := fun same => differs (congrArg some same)
      unfold heldBy
      simp only [others other elsewhere]

/-- The requests that were replied to, in order. -/
def settledBy (marks : List (Mark κ)) : List Nat :=
  marks.filterMap fun mark => mark.settles.map Prod.fst

theorem settledBy_append (front back : List (Mark κ)) :
    settledBy (front ++ back) = settledBy front ++ settledBy back :=
  List.filterMap_append

/-- Every request is with its live server or settled. -/
structure Booked (live : Nat → Option (κ × Server)) (hand : Nat → List Outbound)
    (sends : List (Sent κ)) (marks : List (Mark κ)) : Prop where
  book : Book (sends.map (·.server)) (heldBy live hand) (settledBy marks)
  known : ∀ id, ∀ entry ∈ asksAt live hand id,
    sends[entry.2.serial]? = some ⟨entry.1, some id, entry.2.token, entry.2.req⟩

variable {sends : List (Sent κ)} {marks : List (Mark κ)}

theorem Booked.still (booked : Booked live hand sends marks)
    (asks : ∀ id, (asksAt live' hand' id).Perm (asksAt live hand id))
    (silent : settledBy said = []) : Booked live' hand' sends (marks ++ said) := by
  constructor
  · rw [settledBy_append, silent, List.append_nil]
    apply booked.book.reorder
    intro holder
    cases holder with
    | none => exact List.Perm.refl _
    | some id => exact (asks id).map _
  · intro id entry member
    exact booked.known id entry ((asks id).mem_iff.1 member)

theorem sends_append {serial : Nat} {sent extra : Sent κ} (found : sends[serial]? = some sent) :
    (sends ++ [extra])[serial]? = some sent := by
  rw [List.getElem?_append_left (List.getElem?_eq_some_iff.1 found).1]
  exact found

theorem Booked.issue {id : Nat} {key : κ} {token : ReqToken}
    (booked : Booked live hand sends marks) (asks : (asksAt live' hand' id).Perm
      (asksAt live hand id ++ [(key, ⟨sends.length, token, req⟩)]))
    (others : ∀ other, other ≠ id → asksAt live' hand' other = asksAt live hand other) :
    Booked live' hand' (sends ++ [⟨key, some id, token, req⟩]) marks := by
  constructor
  · rw [List.map_append]
    apply booked.book.issue
    · rw [List.length_map]
      have mapped := asks.map fun entry => entry.2.serial
      rw [List.map_append] at mapped
      exact mapped
    · exact heldBy_elsewhere others
  · intro other entry member
    by_cases own : other = id
    · rw [own] at member ⊢
      rcases List.mem_append.1 (asks.mem_iff.1 member) with old | new
      · exact sends_append (booked.known id entry old)
      · rw [List.mem_singleton.1 new]
        exact List.getElem?_concat_length
    · rw [others other own] at member
      exact sends_append (booked.known other entry member)

/-- A request that is refused at once. -/
theorem Booked.refuse {key : κ} {token : ReqToken} {mark : Mark κ} {origin : Origin}
    (booked : Booked live hand sends marks) (settles : mark.settles = some (sends.length, origin)) :
    Booked live hand (sends ++ [⟨key, none, token, req⟩]) (marks ++ [mark]) := by
  have issued : Book ((sends ++ [Sent.mk key none token req]).map Sent.server)
      (fun holder => holder.elim [sends.length] fun id => heldBy live hand (some id))
      (settledBy marks) := by
    rw [List.map_append]
    apply booked.book.issue
    · rw [List.length_map]
      exact List.Perm.refl _
    · intro other differs
      cases other with
      | none => exact absurd rfl differs
      | some id => rfl
  constructor
  · refine @Book.settle _ _ _ (heldBy live hand) _ _ none [sends.length] issued ?_ ?_ ?_
    · exact List.Perm.refl _
    · intro other differs
      cases other with
      | none => exact absurd rfl differs
      | some id => rfl
    · rw [settledBy_append]
      simp [settledBy, settles]
  · intro id entry member
    exact sends_append (booked.known id entry member)

theorem Booked.settle {id : Nat} {done : List (κ × Ask)} (booked : Booked live hand sends marks)
    (asks : (asksAt live hand id).Perm (asksAt live' hand' id ++ done))
    (others : ∀ other, other ≠ id → asksAt live' hand' other = asksAt live hand other)
    (settles : (settledBy said).Perm (done.map fun entry => entry.2.serial)) :
    Booked live' hand' sends (marks ++ said) := by
  constructor
  · have own : (heldBy live hand (some id)).Perm
        (heldBy live' hand' (some id) ++ done.map fun entry => entry.2.serial) := by
      have mapped := asks.map fun entry => entry.2.serial
      rw [List.map_append] at mapped
      exact mapped
    apply booked.book.settle own
    · exact heldBy_elsewhere others
    · rw [settledBy_append]
      exact settles.append_left _
  · intro other entry member
    by_cases own : other = id
    · rw [own] at member ⊢
      exact booked.known id entry (asks.mem_iff.2 (List.mem_append.2 (Or.inl member)))
    · rw [others other own] at member
      exact booked.known other entry member

/-! ### What the editor is told -/

def Mark.isExit (mark : Mark κ) : Bool :=
  match mark.event with
  | .serverExited _ _ _ _ => true
  | _ => false

/-- Nothing about a server comes behind its exit. -/
def NotAfterExit (before : List (Mark κ)) (mark : Mark κ) : Prop :=
  ∀ id, mark.server = some id → ∀ earlier ∈ before, earlier.server = some id →
    earlier.isExit = false

/-- The message answers the request with this id. -/
def Responds (msg : Json) (rid : Int) : Prop :=
  (msg.get "method").bind Json.asStr = none ∧
    ∃ reqId, msg.get "id" = some reqId ∧ reqId.asI64 = some rid

/-- What a response says: its error when it has an error object, else its result. -/
def dueResult (msg : Json) : Except String Json :=
  match msg.get "error" with
  | none | some .null => .ok ((msg.get "result").getD .null)
  | some err => .error (errorMessage err)

/-- How a request was settled. -/
def Settles (codec : Codec κ) (live : Nat → Option (κ × Server)) (wire : List WireOp)
    (heard : List (Nat × Json)) (sent : Sent κ) (event : LspEvent κ) (serial : Nat) :
    Origin → Prop
  | .answered rid => ∃ id msg, sent.server = some id ∧
      .stdin id (.request rid serial sent.req) ∈ wire ∧ (id, msg) ∈ heard ∧ Responds msg rid ∧
      event = .reply sent.key sent.token (codec.reply sent.req (dueResult msg))
  | .failed => ∃ id reason, sent.server = some id ∧ live id = none ∧
      event = .reply sent.key sent.token (transportError sent.req reason)
  | .unsupported => sent.server = none ∧ ∃ why, unsupported? codec sent.req = some why ∧
      event = .reply sent.key sent.token (.raw (.error why))

structure Told (codec : Codec κ) (live : Nat → Option (κ × Server)) (sends : List (Sent κ))
    (marks : List (Mark κ)) (wire : List WireOp) (heard : List (Nat × Json)) (minted : Nat) :
    Prop where
  settles : ∀ mark ∈ marks, ∀ serial origin, mark.settles = some (serial, origin) →
    ∃ sent, sends[serial]? = some sent ∧ mark.server = sent.server ∧
      Settles codec live wire heard sent mark.event serial origin
  plain : ∀ mark ∈ marks, mark.settles = none →
    ∀ key token reply, mark.event ≠ .reply key token reply
  last : Lawful NotAfterExit marks
  gone : ∀ mark ∈ marks, mark.isExit = true → ∀ id, mark.server = some id → live id = none
  old : ∀ mark ∈ marks, ∀ id, mark.server = some id → id < minted

variable {codec : Codec κ} {wire' : List WireOp} {heard heard' : List (Nat × Json)}
  {minted' : Nat} {sends' : List (Sent κ)}

/-- The wire, the messages and the requests only grow, and a removed server does not come back. -/
structure Later (live live' : Nat → Option (κ × Server)) (sends sends' : List (Sent κ))
    (wire wire' : List WireOp) (heard heard' : List (Nat × Json)) (minted minted' : Nat) :
    Prop where
  live : ∀ id, id < minted → live id = none → live' id = none
  sends : ∀ (serial : Nat) (sent : Sent κ), sends[serial]? = some sent →
    sends'[serial]? = some sent
  wire : ∀ op ∈ wire, op ∈ wire'
  heard : ∀ entry ∈ heard, entry ∈ heard'
  minted : minted ≤ minted'

theorem Told.say (told : Told codec live sends marks wire heard minted)
    (later : Later live live' sends sends' wire wire' heard heard' minted minted')
    (about : ∀ mark ∈ said, ∀ id, mark.server = some id → live id ≠ none ∧ id < minted)
    (settles : ∀ mark ∈ said, ∀ serial origin, mark.settles = some (serial, origin) →
      ∃ sent, sends'[serial]? = some sent ∧ mark.server = sent.server ∧
        Settles codec live' wire' heard' sent mark.event serial origin)
    (plain : ∀ mark ∈ said, mark.settles = none →
      ∀ key token reply, mark.event ≠ .reply key token reply)
    (end_only : ∀ before mark after, said = before ++ mark :: after → after ≠ [] →
      mark.isExit = false)
    (gone : ∀ mark ∈ said, mark.isExit = true → ∀ id, mark.server = some id → live' id = none) :
    Told codec live' sends' (marks ++ said) wire' heard' minted' := by
  constructor
  · intro mark member serial origin how
    rcases List.mem_append.1 member with before | new
    · rcases told.settles mark before serial origin how with ⟨sent, there, server, settled⟩
      refine ⟨sent, later.sends serial sent there, server, ?_⟩
      cases origin with
      | answered rid =>
          rcases settled with ⟨id, msg, its, carried, answer, responds, event⟩
          exact ⟨id, msg, its, later.wire _ carried, later.heard _ answer, responds, event⟩
      | failed =>
          rcases settled with ⟨id, reason, its, dead, event⟩
          exact ⟨id, reason, its,
            later.live id (told.old mark before id (server.trans its)) dead, event⟩
      | unsupported => exact settled
    · exact settles mark new serial origin how
  · intro mark member
    rcases List.mem_append.1 member with before | new
    · exact told.plain mark before
    · exact plain mark new
  · apply lawful_append told.last
    intro before mark after whole id its earlier member earlier_its
    have inside : mark ∈ said := by
      rw [whole]
      exact List.mem_append.2 (Or.inr (List.mem_cons_self ..))
    rcases List.mem_append.1 member with old | new
    · by_contra exits
      exact (about mark inside id its).1
        (told.gone earlier old (Bool.eq_true_of_not_eq_false exits) id earlier_its)
    · rcases List.append_of_mem new with ⟨front, back, split⟩
      apply end_only front earlier (back ++ mark :: after) _ (by simp)
      rw [whole, split, List.append_assoc, List.cons_append]
  · intro mark member exits id its
    rcases List.mem_append.1 member with before | new
    · exact later.live id (told.old mark before id its) (told.gone mark before exits id its)
    · exact gone mark new exits id its
  · intro mark member id its
    rcases List.mem_append.1 member with before | new
    · exact Nat.lt_of_lt_of_le (told.old mark before id its) later.minted
    · exact Nat.lt_of_lt_of_le (about mark new id its).2 later.minted

/-- One mark is said, and it settles a request. -/
theorem Told.settle {event : LspEvent κ} {server : Option Nat} {serial : Nat} {origin : Origin}
    {sent : Sent κ} (told : Told codec live sends marks wire heard minted)
    (later : Later live live' sends sends' wire wire' heard heard' minted minted')
    (alive : ∀ id, server = some id → live id ≠ none ∧ id < minted)
    (known : sends'[serial]? = some sent) (about : server = sent.server)
    (settles : Settles codec live' wire' heard' sent event serial origin)
    (stays : (Mark.mk event server (some (serial, origin))).isExit = false) :
    Told codec live' sends' (marks ++ [⟨event, server, some (serial, origin)⟩]) wire' heard'
      minted' := by
  have only : ∀ mark ∈ [Mark.mk event server (some (serial, origin))],
      mark = ⟨event, server, some (serial, origin)⟩ := fun _ member => List.mem_singleton.1 member
  apply told.say later
  · intro mark member id its
    rw [only mark member] at its
    exact alive id its
  · intro mark member serial' origin' how
    rw [only mark member] at how ⊢
    cases how
    exact ⟨sent, known, about, settles⟩
  · intro mark member how
    rw [only mark member] at how
    cases how
  · intro before mark after whole _
    rw [only mark (by rw [whole]; exact List.mem_append.2 (Or.inr (List.mem_cons_self ..)))]
    exact stays
  · intro mark member exits
    rw [only mark member, stays] at exits
    cases exits

/-- Nothing is said. -/
theorem Told.later (told : Told codec live sends marks wire heard minted)
    (later : Later live live' sends sends' wire wire' heard heard' minted minted') :
    Told codec live' sends' marks wire' heard' minted' := by
  have said : Told codec live' sends' (marks ++ []) wire' heard' minted' := by
    apply told.say later
    · intro mark member
      cases member
    · intro mark member
      cases member
    · intro mark member
      cases member
    · intro before mark after whole
      cases before <;> cases whole
    · intro mark member
      cases member
  rw [List.append_nil] at said
  exact said

/-! ### The invariant -/

structure Kept (codec : Codec κ) (client : Client κ) (hand : Nat → List Outbound) : Prop where
  registry : Registry client
  wired : Wired client.live hand client.wire client.issued client.nextWireId
  booked : Booked client.live hand client.sends client.marks
  told : Told codec client.live client.sends client.marks client.wire client.heard
    client.nextWireId
  applies : ∀ apply ∈ client.pendingApply,
    ∃ server, client.live apply.server = some (apply.key, server)
  flushed : ∀ id key server, client.live id = some (key, server) → server.phase = .ready →
    server.queued = []

/-- No command is in hand. -/
def nobody : Nat → List Outbound := fun _ => []

theorem Registry.live_lt (registry : Registry client) {id : Nat} {entry : κ × Server}
    (there : client.live id = some entry) : id < client.nextWireId := by
  by_contra past
  have unminted := registry.minted id (Nat.not_lt.1 past)
  unfold Client.live at there
  rw [unminted] at there
  cases there

theorem settled_refl (wire : List WireOp) (id : Nat) (hand : List Outbound) (server : Server) :
    Settled wire id hand hand server server :=
  ⟨rfl, List.Sublist.refl _, Int.le_refl _, Or.inl rfl⟩

/-- A mark that is no reply and no exit, about a live server. -/
structure Plain (live : Nat → Option (κ × Server)) (mark : Mark κ) : Prop where
  settles : mark.settles = none
  noReply : ∀ key token reply, mark.event ≠ .reply key token reply
  noExit : mark.isExit = false
  about : ∃ id, mark.server = some id ∧ live id ≠ none

/-- A stretch that sends no command and settles no request. -/
theorem Kept.still (kept : Kept codec client hand) (registry : Registry next)
    (servers : ∀ id key server', next.live id = some (key, server') →
      ∃ server, client.live id = some (key, server) ∧
        Settled (client.wire ++ ops) id (hand id) (hand' id) server server')
    (flushed : ∀ id key server, next.live id = some (key, server) → server.phase = .ready →
      server.queued = [])
    (asks : ∀ id, (asksAt next.live hand' id).Perm (asksAt client.live hand id))
    (dead : ∀ id, client.live id = none → next.live id = none)
    (wire : next.wire = client.wire ++ ops) (own : ∀ op ∈ ops, op.server < client.nextWireId)
    (quiet : ∀ op ∈ ops, op.command? = none) (marks : next.marks = client.marks ++ said)
    (plain : ∀ mark ∈ said, Plain client.live mark) (sends : next.sends = client.sends)
    (issued : next.issued = client.issued) (minted : next.nextWireId = client.nextWireId)
    (heard : ∀ entry ∈ client.heard, entry ∈ next.heard) (applies : ∀ apply ∈ next.pendingApply,
      ∃ server, next.live apply.server = some (apply.key, server)) : Kept codec next hand' := by
  constructor
  · exact registry
  · rw [wire, issued, minted]
    exact kept.wired.still servers own quiet
  · rw [sends, marks]
    apply kept.booked.still asks
    apply List.filterMap_eq_nil_iff.2
    intro mark member
    rw [(plain mark member).settles]
    rfl
  · rw [marks, sends, wire, minted]
    refine kept.told.say ⟨fun id _ => dead id, fun _ _ found => found,
      fun op member => List.mem_append.2 (Or.inl member), heard, Nat.le_refl _⟩ ?_ ?_ ?_ ?_ ?_
    · intro mark member id its
      rcases (plain mark member).about with ⟨id', its', alive⟩
      rw [its'] at its
      cases its
      refine ⟨alive, ?_⟩
      rcases Option.ne_none_iff_exists'.1 alive with ⟨entry, there⟩
      exact kept.registry.live_lt there
    · intro mark member serial origin how
      rw [(plain mark member).settles] at how
      cases how
    · intro mark member _
      exact (plain mark member).noReply
    · intro before mark after whole _
      apply (plain mark _).noExit
      rw [whole]
      exact List.mem_append.2 (Or.inr (List.mem_cons_self ..))
    · intro mark member exits
      rw [(plain mark member).noExit] at exits
      cases exits
  · exact applies
  · exact flushed

/-- No server changes. -/
theorem Kept.beside (kept : Kept codec client hand) (servers : next.servers = client.servers)
    (byId : next.byId = client.byId) (wire : next.wire = client.wire ++ ops)
    (own : ∀ op ∈ ops, op.server < client.nextWireId) (quiet : ∀ op ∈ ops, op.command? = none)
    (marks : next.marks = client.marks ++ said) (plain : ∀ mark ∈ said, Plain client.live mark)
    (sends : next.sends = client.sends) (issued : next.issued = client.issued)
    (minted : next.nextWireId = client.nextWireId)
    (heard : ∀ entry ∈ client.heard, entry ∈ next.heard) (applies : ∀ apply ∈ next.pendingApply,
      ∃ server, client.live apply.server = some (apply.key, server)) : Kept codec next hand := by
  have live : next.live = client.live := live_congr servers byId
  refine kept.still (kept.registry.congr servers byId minted) ?_ ?_ ?_ ?_ wire own quiet marks plain sends issued minted heard ?_
  · rw [live]
    exact fun id key server there => ⟨server, there, settled_refl ..⟩
  · rw [live]
    exact kept.flushed
  · rw [live]
    exact fun id => List.Perm.refl _
  · rw [live]
    exact fun id none => none
  · rw [live]
    exact applies

theorem emit_kept {key : κ} {server : Server} (event : LspEvent κ)
    (kept : Kept codec client hand) (found : client.servers key = some server)
    (noReply : ∀ key token reply, event ≠ .reply key token reply)
    (noExit : (Mark.mk event (some server.id) none).isExit = false) :
    Kept codec (client.emit server.id event) hand := by
  have plain : ∀ mark ∈ [Mark.mk event (some server.id) none], Plain client.live mark := by
    intro mark member
    rw [List.mem_singleton.1 member]
    refine ⟨rfl, noReply, noExit, server.id, rfl, ?_⟩
    rw [kept.registry.live_of found]
    exact Option.some_ne_none _
  exact kept.beside rfl rfl (List.append_nil _).symm (fun _ member => (List.not_mem_nil member).elim)
    (fun _ member => (List.not_mem_nil member).elim) rfl plain rfl rfl rfl (fun _ member => member)
    kept.applies

theorem sendMessage_kept (key : κ) (message : Message) (kept : Kept codec client hand)
    (quiet : ∀ id, (WireOp.stdin id message).command? = none) :
    Kept codec (client.sendMessage key message) hand := by
  unfold Client.sendMessage
  cases found : client.servers key with
  | none => exact kept
  | some server =>
      have bound := kept.registry.live_lt (kept.registry.live_of found)
      have own : ∀ op ∈ [WireOp.stdin server.id message], op.server < client.nextWireId := by
        intro op member
        rw [List.mem_singleton.1 member]
        exact bound
      have silent : ∀ op ∈ [WireOp.stdin server.id message], op.command? = none := by
        intro op member
        rw [List.mem_singleton.1 member]
        exact quiet server.id
      exact kept.beside rfl rfl rfl own silent (List.append_nil _).symm
        (fun _ member => (List.not_mem_nil member).elim) rfl rfl rfl (fun _ member => member)
        kept.applies

theorem sendMessage_servers (client : Client κ) (key : κ) (message : Message) :
    (client.sendMessage key message).servers = client.servers := by
  unfold Client.sendMessage
  split <;> rfl

theorem applyEditResponse_kept {id : Nat} {outcome : ApplyEditOutcome}
    (kept : Kept codec client nobody) :
    Kept codec (client.applyEditResponse id outcome) nobody := by
  unfold Client.applyEditResponse
  split
  · refine sendMessage_kept _ _ ?_ (fun _ => rfl)
    exact kept.beside rfl rfl (List.append_nil _).symm
      (fun _ member => (List.not_mem_nil member).elim)
      (fun _ member => (List.not_mem_nil member).elim) (List.append_nil _).symm
      (fun _ member => (List.not_mem_nil member).elim) rfl rfl rfl (fun _ member => member)
      (fun apply member => kept.applies apply (List.mem_filter.1 member).1)
  · exact kept

/-! ### Sending -/

theorem asksAt_live {id : Nat} {key : κ} {server : Server}
    (there : live id = some (key, server)) : asksAt live hand id =
      (server.asks ++ (hand id).filterMap Outbound.ask?).map fun ask => (key, ask) := by
  unfold asksAt
  rw [there]

theorem asksAt_congr {id : Nat} (same : live' id = live id) (hands : hand' id = hand id) :
    asksAt live' hand' id = asksAt live hand id := by
  unfold asksAt
  rw [same, hands]

theorem dispatch_asks (server : Server) (outbound : Outbound) (rest : List Outbound) :
    ((server.dispatch outbound).1.asks ++ rest.filterMap Outbound.ask?).Perm
      (server.asks ++ (outbound :: rest).filterMap Outbound.ask?) := by
  cases outbound with
  | notify note => exact List.Perm.refl _
  | request serial token req =>
      have moved : (server.dispatch (.request serial token req)).1.asks =
          server.pending.filterMap (fun entry => entry.2.ask?) ++ [⟨serial, token, req⟩] ++
            server.queued.filterMap Outbound.ask? := by
        unfold Server.asks Server.dispatch
        rw [List.filterMap_append]
        rfl
      have added : (Outbound.request serial token req :: rest).filterMap Outbound.ask? =
          ⟨serial, token, req⟩ :: rest.filterMap Outbound.ask? := rfl
      rw [moved, added, Server.asks]
      have swapped : ([(⟨serial, token, req⟩ : Ask)] ++ server.queued.filterMap Outbound.ask?).Perm
          (server.queued.filterMap Outbound.ask? ++ [⟨serial, token, req⟩]) :=
        List.perm_append_comm
      have inside := (swapped.append_left
        (server.pending.filterMap fun entry => entry.2.ask?)).append_right
          (rest.filterMap Outbound.ask?)
      simpa only [List.append_assoc, List.singleton_append] using inside

section

variable [DecidableEq κ]

variable {key : κ}

theorem sendOutbound_eq {server : Server} (outbound : Outbound)
    (found : client.servers key = some server) : client.sendOutbound key outbound =
      (client.update key (server.dispatch outbound).1).push
        (.stdin server.id (server.dispatch outbound).2) := by
  cases outbound with
  | notify note =>
      have same : client.update key server = client := by
        unfold Client.update
        have servers : (fun other => if other = key then some server else client.servers other) =
            client.servers := by
          funext other
          by_cases own : other = key
          · rw [if_pos own, own, found]
          · rw [if_neg own]
        rw [servers]
      simp only [Client.sendOutbound, Client.sendMessage, found, Server.dispatch, same]
  | request serial token req =>
      simp only [Client.sendOutbound, Client.sendRequest, found, Server.dispatch]

/-- The hand with one server's part replaced. -/
def inHand (hand : Nat → List Outbound) (id : Nat) (now : List Outbound) : Nat → List Outbound :=
  fun other => if other = id then now else hand other

theorem sendOutbound_kept {server : Server} {outbound : Outbound} {rest : List Outbound}
    (kept : Kept codec client hand) (found : client.servers key = some server)
    (ready : server.phase = .ready) (head : hand server.id = outbound :: rest) :
    Kept codec (client.sendOutbound key outbound) (inHand hand server.id rest) := by
  have there := kept.registry.live_of found
  have empty := kept.flushed server.id key server there ready
  have moved : Moved client.live (client.update key (server.dispatch outbound).1).live server.id
      (some (key, (server.dispatch outbound).1)) := update_moved kept.registry found
  have others : ∀ other, other ≠ server.id → inHand hand server.id rest other = hand other :=
    fun other own => if_neg own
  have rests : inHand hand server.id rest server.id = rest := if_pos rfl
  have now : (client.update key (server.dispatch outbound).1).live server.id =
      some (key, (server.dispatch outbound).1) := (moved server.id).trans (if_pos rfl)
  rw [sendOutbound_eq outbound found]
  constructor
  · exact (update_registry kept.registry found (dispatch_id server outbound)).congr rfl rfl rfl
  · exact kept.wired.send there moved ready empty head rests others (kept.registry.live_lt there)
  · have booked : Booked (client.update key (server.dispatch outbound).1).live
        (inHand hand server.id rest) client.sends (client.marks ++ []) := by
      apply kept.booked.still _ rfl
      intro id
      by_cases own : id = server.id
      · subst own
        rw [asksAt_live now, asksAt_live there, rests, head]
        exact (dispatch_asks server outbound rest).map _
      · rw [asksAt_congr ((moved id).trans (if_neg own)) (others id own)]
    rw [List.append_nil] at booked
    exact booked
  · apply kept.told.later
    refine ⟨?_, fun _ _ same => same, fun _ member => List.mem_append.2 (Or.inl member),
      fun _ member => member, Nat.le_refl _⟩
    intro id _ dead
    exact moved.dead there dead
  · intro apply member
    exact moved.keyed there (kept.applies apply member)
  · intro id key' server' its isReady
    by_cases own : id = server.id
    · rw [own] at its
      cases now.symm.trans its
      rw [dispatch_queued]
      exact empty
    · exact kept.flushed id key' server' (((moved id).trans (if_neg own)).symm.trans its) isReady

theorem inHand_inHand (hand : Nat → List Outbound) (id : Nat) (one two : List Outbound) :
    inHand (inHand hand id one) id two = inHand hand id two := by
  funext other
  unfold inHand
  by_cases own : other = id
  · rw [if_pos own, if_pos own]
  · rw [if_neg own, if_neg own, if_neg own]

theorem inHand_nobody (id : Nat) : inHand nobody id [] = nobody := by
  funext other
  unfold inHand nobody
  split <;> rfl

theorem update_update (client : Client κ) (key : κ) (one two : Server) :
    (client.update key one).update key two = client.update key two := by
  unfold Client.update
  congr 1
  funext other
  by_cases own : other = key
  · rw [if_pos own, if_pos own]
  · rw [if_neg own, if_neg own]
    exact if_neg own

/-- The loop of `flush_queued`. -/
theorem flush_kept (queue : List Outbound) :
    ∀ {client : Client κ} {server : Server}, client.servers key = some server →
      server.phase = .ready → Kept codec client (inHand nobody server.id queue) →
      Kept codec (queue.foldl (fun client outbound => client.sendOutbound key outbound) client)
        nobody := by
  induction queue with
  | nil =>
      intro client server _ _ kept
      rw [inHand_nobody] at kept
      exact kept
  | cons outbound rest ih =>
      intro client server found ready kept
      have sent := sendOutbound_kept kept found ready (if_pos rfl)
      rw [inHand_inHand] at sent
      have there : (client.sendOutbound key outbound).servers key =
          some (server.dispatch outbound).1 := by
        rw [sendOutbound_eq outbound found]
        exact if_pos rfl
      rw [← dispatch_id server outbound] at sent
      exact ih there ((dispatch_phase server outbound).trans ready) sent

end

/-! ### Issuing -/

/-- What is issued to a server is in hand. -/
theorem issue_wired {key : κ} {server : Server} (outbound : Outbound)
    (kept : Kept codec client nobody) (found : client.servers key = some server) :
    Wired client.live (inHand nobody server.id [outbound]) client.wire
      (client.issued ++ [(server.id, outbound.command)]) client.nextWireId := by
  apply kept.wired.issue _ (kept.registry.live_lt (kept.registry.live_of found))
  intro other key' server' its
  refine ⟨server', its, rfl, rfl, rfl, ?_⟩
  unfold inHand nobody
  by_cases own : other = server.id
  · rw [if_pos own, if_pos own, List.append_nil, List.map_append]
    rfl
  · rw [if_neg own, if_neg own, List.append_nil, List.append_nil]

/-- A notification is issued to a server, and is in hand. -/
theorem issueNote_kept {key : κ} {server : Server} (note : LspNotify)
    (kept : Kept codec client nobody) (found : client.servers key = some server) :
    Kept codec { client with issued := client.issued ++ [(server.id, Command.notify note)] }
      (inHand nobody server.id [.notify note]) := by
  have there := kept.registry.live_of found
  constructor
  · exact kept.registry.congr rfl rfl rfl
  · exact issue_wired (.notify note) kept found
  · have booked : Booked client.live (inHand nobody server.id [.notify note]) client.sends
        (client.marks ++ []) := by
      apply kept.booked.still _ rfl
      intro id
      by_cases own : id = server.id
      · rw [own, asksAt_live there, asksAt_live there]
        exact List.Perm.of_eq (by rw [inHand, if_pos rfl]; rfl)
      · rw [asksAt_congr rfl (if_neg own)]
    rw [List.append_nil] at booked
    exact booked
  · exact kept.told.later ⟨fun _ _ dead => dead, fun _ _ same => same, fun _ member => member,
      fun _ member => member, Nat.le_refl _⟩
  · exact kept.applies
  · exact kept.flushed

/-- A request is issued to a server, and is in hand. -/
theorem issueRequest_kept {key : κ} {server : Server} (token : ReqToken) (req : LspRequest Json)
    (kept : Kept codec client nobody) (found : client.servers key = some server) :
    Kept codec
      { client with
        sends := client.sends ++ [Sent.mk key (some server.id) token req]
        issued := client.issued ++ [(server.id, Command.request client.sends.length req)] }
      (inHand nobody server.id [.request client.sends.length token req]) := by
  have there := kept.registry.live_of found
  constructor
  · exact kept.registry.congr rfl rfl rfl
  · exact issue_wired (.request client.sends.length token req) kept found
  · have booked : Booked client.live
        (inHand nobody server.id [.request client.sends.length token req])
        (client.sends ++ [⟨key, some server.id, token, req⟩]) client.marks := by
      apply kept.booked.issue
      · rw [asksAt_live there, asksAt_live there]
        exact List.Perm.of_eq (by
          rw [inHand, if_pos rfl, List.map_append, List.map_append, List.append_assoc]
          rfl)
      · intro other own
        exact asksAt_congr rfl (if_neg own)
    exact booked
  · exact kept.told.later ⟨fun _ _ dead => dead, fun _ _ => sends_append, fun _ member => member,
      fun _ member => member, Nat.le_refl _⟩
  · exact kept.applies
  · exact kept.flushed

theorem young_asks {key : κ} {server : Server} (kept : Kept codec client hand)
    (found : client.servers key = some server) (young : server.phase = .initializing) :
    server.pending.filterMap (fun entry => entry.2.ask?) = [] := by
  apply List.filterMap_eq_nil_iff.2
  intro entry member
  rw [kept.wired.young server.id key server (kept.registry.live_of found) young entry member]
  rfl

/-! ### Removal -/

/-- The degraded reply of a request that waited at a removed server. -/
def failure (key : κ) (id : Nat) (reason : String) (ask : Ask) : Mark κ :=
  ⟨.reply key ask.token (transportError ask.req reason), some id, some (ask.serial, .failed)⟩

theorem failures_settle (key : κ) (id : Nat) (reason : String) (asks : List Ask) :
    settledBy (asks.map (failure key id reason)) = asks.map (·.serial) := by
  induction asks with
  | nil => rfl
  | cons ask asks ih =>
      rw [List.map_cons, List.map_cons, ← ih]
      rfl

/-- What has more behind it, where at most one element is appended, stood there before. -/
theorem mem_of_more {α : Type} {front back before after : List α} {x : α} (short : back.length ≤ 1)
    (whole : front ++ back = before ++ x :: after) (more : after ≠ []) : x ∈ front := by
  have there : (front ++ back)[before.length]? = some x := by
    rw [whole, List.getElem?_append_right (Nat.le_refl _), Nat.sub_self]
    rfl
  have lengths := congrArg List.length whole
  have longer := List.length_pos_iff.2 more
  simp only [List.length_append, List.length_cons] at lengths
  have inside : before.length < front.length := by omega
  rw [List.getElem?_append_left inside] at there
  exact List.mem_of_getElem? there

/-- A server is removed, and the requests that waited at it are told; its exit may be, last. -/
theorem retire_kept {key : κ} {server : Server} {reason : String} {exits : List (Mark κ)}
    (kept : Kept codec client nobody) (found : client.servers key = some server)
    (registry : Registry next) (moved : Moved client.live next.live server.id none)
    (wire : next.wire = client.wire ++ ops) (own : ∀ op ∈ ops, op.server = server.id)
    (quiet : ∀ op ∈ ops, op.command? = none)
    (marks : next.marks = client.marks ++ (server.asks.map (failure key server.id reason) ++ exits))
    (last : exits = [] ∨ ∃ message code signal,
      exits = [⟨.serverExited key message code signal, some server.id, none⟩])
    (sends : next.sends = client.sends) (issued : next.issued = client.issued)
    (minted : next.nextWireId = client.nextWireId) (heard : next.heard = client.heard)
    (applies : ∀ apply ∈ next.pendingApply, apply ∈ client.pendingApply ∧ apply.key ≠ key) :
    Kept codec next nobody := by
  have there := kept.registry.live_of found
  have bound := kept.registry.live_lt there
  have gone : next.live server.id = none := (moved server.id).trans (if_pos rfl)
  have still : ∀ {id : Nat} {key' : κ} {server' : Server}, next.live id = some (key', server') →
      client.live id = some (key', server') := by
    intro id key' server' its
    rw [moved id] at its
    split at its
    · cases its
    · exact its
  have told_of : ∀ mark ∈ server.asks.map (failure key server.id reason) ++ exits,
      (∃ ask ∈ server.asks, failure key server.id reason ask = mark) ∨
        ∃ message code signal, mark = ⟨.serverExited key message code signal, some server.id, none⟩ := by
    intro mark member
    rcases List.mem_append.1 member with failed | exit
    · exact Or.inl (List.mem_map.1 failed)
    · rcases last with none | ⟨message, code, signal, one⟩
      · rw [none] at exit
        cases exit
      · rw [one] at exit
        exact Or.inr ⟨message, code, signal, List.mem_singleton.1 exit⟩
  have named : ∀ mark ∈ server.asks.map (failure key server.id reason) ++ exits,
      mark.server = some server.id := by
    intro mark member
    rcases told_of mark member with ⟨ask, -, rfl⟩ | ⟨message, code, signal, rfl⟩ <;> rfl
  constructor
  · exact registry
  · rw [wire, issued, minted]
    apply kept.wired.still _ _ quiet
    · intro id key' server' its
      exact ⟨server', still its, settled_refl ..⟩
    · intro op member
      rw [own op member]
      exact bound
  · rw [sends, marks]
    have silent : settledBy exits = [] := by
      rcases last with none | ⟨message, code, signal, one⟩
      · rw [none]
        rfl
      · rw [one]
        rfl
    have empty : asksAt next.live nobody server.id = [] := by
      unfold asksAt
      rw [gone]
    have all : (asksAt client.live nobody server.id).Perm
        (asksAt next.live nobody server.id ++ server.asks.map fun ask => (key, ask)) := by
      rw [empty, asksAt_live there, List.nil_append]
      exact List.Perm.of_eq (by rw [nobody, List.filterMap_nil, List.append_nil])
    apply kept.booked.settle all
    · intro other differs
      exact asksAt_congr ((moved other).trans (if_neg differs)) rfl
    · rw [settledBy_append, silent, List.append_nil, failures_settle, List.map_map]
      exact List.Perm.refl _
  · rw [sends, marks, wire, heard, minted]
    have later : Later client.live next.live client.sends client.sends client.wire
        (client.wire ++ ops) client.heard client.heard client.nextWireId client.nextWireId := by
      refine ⟨?_, fun _ _ same => same, fun _ member => List.mem_append.2 (Or.inl member),
        fun _ member => member, Nat.le_refl _⟩
      intro id _ dead
      by_cases its : id = server.id
      · rw [its]
        exact gone
      · exact (moved id).trans ((if_neg its).trans dead)
    apply kept.told.say later
    · intro mark member id its
      rw [named mark member] at its
      cases its
      rw [there]
      exact ⟨Option.some_ne_none _, bound⟩
    · intro mark member serial origin how
      rcases told_of mark member with ⟨ask, waits, rfl⟩ | ⟨message, code, signal, rfl⟩
      · cases how
        have known := kept.booked.known server.id (key, ask) (by
          rw [asksAt_live there]
          exact List.mem_map.2 ⟨ask, List.mem_append.2 (Or.inl waits), rfl⟩)
        exact ⟨_, known, rfl, server.id, reason, rfl, gone, rfl⟩
      · cases how
    · intro mark member how
      rcases told_of mark member with ⟨ask, -, rfl⟩ | ⟨message, code, signal, rfl⟩
      · cases how
      · intro key' token reply same
        cases same
    · intro before mark after whole more
      have short : exits.length ≤ 1 := by
        rcases last with none | ⟨message, code, signal, one⟩
        · rw [none]
          exact Nat.zero_le _
        · rw [one]
          exact Nat.le_refl _
      -- A mark with more behind it is no last one, and the exit is last.
      rcases List.mem_map.1 (mem_of_more short whole more) with ⟨ask, -, rfl⟩
      rfl
    · intro mark member exits' id its
      rw [named mark member] at its
      cases its
      exact gone
  · intro apply member
    rcases applies apply member with ⟨before, other⟩
    rcases kept.applies apply before with ⟨server', its⟩
    have elsewhere : apply.server ≠ server.id := by
      intro same
      rw [same, there] at its
      cases its
      exact other rfl
    exact ⟨server', (moved _).trans ((if_neg elsewhere).trans its)⟩
  · intro id key' server' its
    exact kept.flushed id key' server' (still its)

section

variable [DecidableEq κ]

variable {key : κ} {server : Server} {outbound : Outbound} {spawn : ServerSpawn}
  {pending : Pending} {rid : Int} {table : List (Int × Pending)} {msg : Json}

theorem applies_filtered {applies : List (Apply κ)} :
    ∀ apply ∈ applies.filter (fun apply => decide (apply.key ≠ key)),
      apply ∈ applies ∧ apply.key ≠ key := by
  intro apply member
  rcases List.mem_filter.1 member with ⟨before, other⟩
  exact ⟨before, of_decide_eq_true other⟩

theorem shutdown_kept (kept : Kept codec client nobody) :
    Kept codec (client.shutdown key) nobody := by
  unfold Client.shutdown
  cases found : client.servers key with
  | none => exact kept
  | some server =>
      have own : ∀ op ∈ [WireOp.stdin server.id (.shutdown server.nextReqId),
          .stdin server.id .exit, .kill server.id], op.server = server.id := by
        intro op member
        rcases List.mem_cons.1 member with rfl | member
        · rfl
        · rcases List.mem_cons.1 member with rfl | member
          · rfl
          · rw [List.mem_singleton.1 member]
            rfl
      have quiet : ∀ op ∈ [WireOp.stdin server.id (.shutdown server.nextReqId),
          .stdin server.id .exit, .kill server.id], op.command? = none := by
        intro op member
        rcases List.mem_cons.1 member with rfl | member
        · rfl
        · rcases List.mem_cons.1 member with rfl | member
          · rfl
          · rw [List.mem_singleton.1 member]
            rfl
      have wire : client.wire ++ [WireOp.stdin server.id (.shutdown server.nextReqId)] ++
          [.stdin server.id .exit] ++ [.kill server.id] =
          client.wire ++ [.stdin server.id (.shutdown server.nextReqId), .stdin server.id .exit,
            .kill server.id] := by
        simp only [List.append_assoc, List.cons_append, List.nil_append]
      have marks : client.marks ++ server.asks.map
            (failure key server.id "language server shut down") =
          client.marks ++ (server.asks.map (failure key server.id "language server shut down") ++
            []) := by
        rw [List.append_nil]
      exact retire_kept kept found ((remove_registry kept.registry found).congr rfl rfl rfl)
        (remove_moved kept.registry found) wire own quiet marks (Or.inl rfl) rfl rfl rfl rfl
        applies_filtered

theorem exited_kept {id : Nat} {code signal : Option Int} (kept : Kept codec client nobody) :
    Kept codec (client.exited id code signal) nobody := by
  unfold Client.exited
  cases routed : client.byId id with
  | none => exact kept
  | some key =>
      rcases kept.registry.routed id key routed with ⟨server, found, rfl⟩
      simp only [found]
      exact retire_kept kept found ((remove_registry kept.registry found).congr rfl rfl rfl)
        (remove_moved kept.registry found) (List.append_nil _).symm
        (fun _ member => (List.not_mem_nil member).elim)
        (fun _ member => (List.not_mem_nil member).elim) (List.append_assoc ..)
        (Or.inr ⟨_, _, _, rfl⟩) rfl rfl rfl rfl applies_filtered

/-- The wedged server is killed with no request waiting at it. -/
theorem killWedged_kept {reason : String} (kept : Kept codec client nobody)
    (found : client.servers key = some server) (none : server.asks = []) :
    Kept codec (client.killWedged key reason) nobody := by
  unfold Client.killWedged
  simp only [found]
  have own : ∀ op ∈ [WireOp.kill server.id], op.server = server.id := by
    intro op member
    rw [List.mem_singleton.1 member]
    rfl
  have quiet : ∀ op ∈ [WireOp.kill server.id], op.command? = Option.none := by
    intro op member
    rw [List.mem_singleton.1 member]
    rfl
  have marks : (((((client.remove key server).push (.kill server.id)).emit server.id
      (.serverExited key s!"killed wedged server: {reason}" Option.none Option.none)).failPending
        key server reason).marks) =
      client.marks ++ (server.asks.map (failure key server.id reason) ++
        [⟨.serverExited key s!"killed wedged server: {reason}" Option.none Option.none,
          some server.id, Option.none⟩]) := by
    simp only [Client.failPending, none, List.map_nil, List.append_nil, List.nil_append]
    rfl
  exact retire_kept kept found ((remove_registry kept.registry found).congr rfl rfl rfl)
    (remove_moved kept.registry found) rfl own quiet marks (Or.inr ⟨_, _, _, rfl⟩) rfl rfl rfl rfl
    applies_filtered

/-! ### A server's own changes -/

/-- One server changes, nothing is sent and nothing is said. -/
theorem update_kept {server' : Server} (kept : Kept codec client hand)
    (found : client.servers key = some server) (same : server'.id = server.id)
    (settled : Settled client.wire server.id (hand server.id) (hand' server.id) server server')
    (others : ∀ other, other ≠ server.id → hand' other = hand other)
    (asks : (server'.asks ++ (hand' server.id).filterMap Outbound.ask?).Perm
      (server.asks ++ (hand server.id).filterMap Outbound.ask?))
    (flushed : server'.phase = .ready → server'.queued = []) :
    Kept codec (client.update key server') hand' := by
  have there := kept.registry.live_of found
  have moved : Moved client.live (client.update key server').live server.id (some (key, server')) :=
    update_moved kept.registry found
  have now : (client.update key server').live server.id = some (key, server') :=
    (moved server.id).trans (if_pos rfl)
  refine kept.still (update_registry kept.registry found same) ?_ ?_ ?_ ?_
    (List.append_nil _).symm (fun _ member => (List.not_mem_nil member).elim)
    (fun _ member => (List.not_mem_nil member).elim) (List.append_nil _).symm
    (fun _ member => (List.not_mem_nil member).elim) rfl rfl rfl (fun _ member => member) ?_
  · intro id key' server'' its
    rw [List.append_nil]
    rcases moved.live_cases its with ⟨rfl, rfl, rfl⟩ | ⟨own, was⟩
    · exact ⟨server, there, settled⟩
    · rw [others id own]
      exact ⟨server'', was, settled_refl ..⟩
  · intro id key' server'' its
    rcases moved.live_cases its with ⟨-, -, rfl⟩ | ⟨-, was⟩
    · exact flushed
    · exact kept.flushed id key' server'' was
  · intro id
    by_cases own : id = server.id
    · rw [own, asksAt_live now, asksAt_live there]
      exact asks.map _
    · rw [asksAt_congr ((moved id).trans (if_neg own)) (others id own)]
  · intro id dead
    exact moved.dead there dead
  · intro apply member
    exact moved.keyed there (kept.applies apply member)

/-- A server in its handshake holds a command back, or is killed with none but notifications. -/
theorem queue_kept (kept : Kept codec client (inHand nobody server.id [outbound]))
    (found : client.servers key = some server) (young : server.phase = .initializing)
    (fits : queuedCap ≤ server.queued.length →
      (server.queued ++ [outbound]).filterMap Outbound.ask? = []) :
    Kept codec (client.queue key outbound) nobody := by
  have held : Kept codec
      (client.update key { server with queued := server.queued ++ [outbound] }) nobody := by
    refine update_kept kept found ?_ ?_ ?_ ?_ ?_
    · rfl
    · refine ⟨?_, List.Sublist.refl _, Int.le_refl _, Or.inl rfl⟩
      rw [inHand, if_pos rfl, nobody, List.append_nil]
    · intro other own
      exact (if_neg own).symm
    · rw [inHand, if_pos rfl, nobody, List.filterMap_nil, List.append_nil]
      exact List.Perm.of_eq (by
        unfold Server.asks
        rw [List.filterMap_append, List.append_assoc])
    · intro ready
      cases young.symm.trans ready
  unfold Client.queue
  simp only [found]
  split
  · next full =>
      apply killWedged_kept held (if_pos rfl)
      unfold Server.asks
      have none := young_asks kept found young
      rw [fits full, List.append_nil]
      exact none
  · exact held

/-- The one command in hand goes out to a ready server. -/
theorem sendLast_kept (kept : Kept codec client (inHand nobody server.id [outbound]))
    (found : client.servers key = some server) (ready : server.phase = .ready) :
    Kept codec (client.sendOutbound key outbound) nobody := by
  have sent := sendOutbound_kept kept found ready (if_pos rfl)
  rw [inHand_inHand, inHand_nobody] at sent
  exact sent

theorem notify_kept {note : LspNotify} (kept : Kept codec client nobody)
    (meets : Meets codec client (.notify key note)) :
    Kept codec (client.notify codec key note) nobody := by
  unfold Client.notify
  split
  · next supported =>
      cases found : client.servers key with
      | none => exact kept
      | some server =>
          have issued := issueNote_kept note kept found
          cases phase : server.phase with
          | ready =>
              simp only [phase]
              exact sendLast_kept issued found phase
          | initializing =>
              simp only [phase]
              apply queue_kept issued found phase
              intro full
              apply List.filterMap_eq_nil_iff.2
              intro outbound member
              cases outbound with
              | notify note => rfl
              | request serial token req =>
                  exfalso
                  apply meets supported
                  refine ⟨server, found, phase, full, Or.inr ⟨serial, token, req, ?_⟩⟩
                  rcases List.mem_append.1 member with queued | new
                  · exact queued
                  · cases List.mem_singleton.1 new
  · exact kept

theorem request_kept {token : ReqToken} {req : LspRequest Json} (kept : Kept codec client nobody)
    (meets : Meets codec client (.request key token req)) :
    Kept codec (client.request codec key token req) nobody := by
  unfold Client.request
  cases refused : unsupported? codec req with
  | some why =>
      simp only
      constructor
      · exact kept.registry.congr rfl rfl rfl
      · exact kept.wired
      · exact kept.booked.refuse rfl
      · have later : Later client.live client.live client.sends
            (client.sends ++ [Sent.mk key none token req]) client.wire client.wire client.heard
            client.heard client.nextWireId client.nextWireId :=
          ⟨fun _ _ dead => dead, fun _ _ => sends_append, fun _ member => member,
            fun _ member => member, Nat.le_refl _⟩
        apply kept.told.settle later
        · intro id its
          cases its
        · exact List.getElem?_concat_length
        · rfl
        · exact ⟨rfl, why, refused, rfl⟩
        · rfl
      · exact kept.applies
      · exact kept.flushed
  | none =>
      simp only
      cases found : client.servers key with
      | none => exact kept
      | some server =>
          have issued := issueRequest_kept token req kept found
          cases phase : server.phase with
          | ready =>
              simp only [phase]
              exact sendLast_kept issued found phase
          | initializing =>
              simp only [phase]
              apply queue_kept issued found phase
              intro full
              exact absurd ⟨server, found, phase, full, Or.inl trivial⟩ (meets refused)

/-! ### Starting -/

/-- The server that a client starts: its handshake is the one request that is out. -/
def Client.newborn (client : Client κ) (spawn : ServerSpawn) : Server :=
  ⟨client.nextWireId, .initializing, [], 2, [(1, .handshake)], spawn.settings, spawn.pathStyle, []⟩

/-- What starting a server under a free key does to a client. -/
structure Started (codec : Codec κ) (client next : Client κ) (key : κ) (spawn : ServerSpawn) :
    Prop where
  free : client.servers key = none
  servers : ∀ other, next.servers other =
    if other = key then some (client.newborn spawn) else client.servers other
  byId : ∀ other, next.byId other =
    if other = client.nextWireId then some key else client.byId other
  wire : next.wire = client.wire ++ [.spawn client.nextWireId spawn.program spawn.args
    (spawn.cwd.getD "") spawn.env,
    .stdin client.nextWireId (.initializeRequest 1 (codec.initParams key spawn))]
  minted : next.nextWireId = client.nextWireId + 1
  marks : next.marks = client.marks
  sends : next.sends = client.sends
  issued : next.issued = client.issued
  heard : next.heard = client.heard
  applies : next.pendingApply = client.pendingApply

theorem ensureServer_starts (free : client.servers key = none) :
    Started codec client (client.ensureServer codec key spawn) key spawn := by
  have servers : ∀ other, (client.ensureServer codec key spawn).servers other =
      if other = key then some (client.newborn spawn) else client.servers other := by
    intro other
    unfold Client.ensureServer
    simp only [free, Client.sendRequest, if_pos]
    by_cases own : other = key
    · rw [if_pos own]
      exact if_pos own
    · rw [if_neg own]
      exact (if_neg own).trans (if_neg own)
  constructor
  · exact free
  · exact servers
  all_goals
    unfold Client.ensureServer
    simp only [free, Client.sendRequest, if_pos]
  · intro other
    rfl
  · exact List.append_assoc ..
  all_goals rfl

/-- Only the new server's entry differs: its key was free and its wire id unminted. -/
theorem Started.moved (started : Started codec client next key spawn) (registry : Registry client) :
    Moved client.live next.live client.nextWireId (some (key, client.newborn spawn)) := by
  intro other
  unfold Client.live
  rw [started.byId other]
  by_cases own : other = client.nextWireId
  · rw [if_pos own, if_pos own]
    simp only [started.servers key, if_pos, Option.map_some]
  · rw [if_neg own, if_neg own]
    cases routed : client.byId other with
    | none => rfl
    | some key' =>
        have differs : key' ≠ key := by
          rintro rfl
          rcases registry.routed other key' routed with ⟨server, there, -⟩
          rw [started.free] at there
          cases there
        simp only [started.servers key', if_neg differs]

theorem Started.still {key' : κ} {id : Nat} (started : Started codec client next key spawn)
    (registry : Registry client) (its : client.live id = some (key', server)) :
    next.live id = some (key', server) := by
  have differs : id ≠ client.nextWireId := by
    rintro rfl
    rw [registry.unlisted] at its
    cases its
  exact (started.moved registry id).trans ((if_neg differs).trans its)

theorem Started.registry (started : Started codec client next key spawn)
    (registry : Registry client) : Registry next := by
  constructor
  · intro key' server there
    rw [started.servers key'] at there
    rw [started.byId server.id]
    split at there
    · next own =>
        cases there
        rw [own]
        exact if_pos rfl
    · have routed := registry.registered key' server there
      have differs : server.id ≠ client.nextWireId := by
        intro same
        rw [same, registry.minted client.nextWireId (Nat.le_refl _)] at routed
        cases routed
      rw [if_neg differs]
      exact routed
  · intro id key' routed
    rw [started.byId id] at routed
    rw [started.servers key']
    split at routed
    · next own =>
        cases routed
        rw [if_pos rfl]
        exact ⟨_, rfl, own.symm⟩
    · rcases registry.routed id key' routed with ⟨server, there, its⟩
      have differs : key' ≠ key := by
        rintro rfl
        rw [started.free] at there
        cases there
      rw [if_neg differs]
      exact ⟨server, there, its⟩
  · intro id past
    rw [started.minted] at past
    have differs : id ≠ client.nextWireId := by omega
    rw [started.byId id, if_neg differs]
    exact registry.minted id (by omega)

/-- A newborn server has no request of the editor's to settle. -/
theorem Started.booked (started : Started codec client next key spawn)
    (kept : Kept codec client nobody) : Booked next.live nobody next.sends next.marks := by
  have moved := started.moved kept.registry
  have booked : Booked next.live nobody client.sends (client.marks ++ []) := by
    apply kept.booked.still _ rfl
    intro id
    by_cases own : id = client.nextWireId
    · unfold asksAt
      rw [own, kept.registry.unlisted, (moved client.nextWireId).trans (if_pos rfl)]
      exact List.Perm.refl _
    · rw [asksAt_congr ((moved id).trans (if_neg own)) rfl]
  rw [List.append_nil] at booked
  rw [started.sends, started.marks]
  exact booked

theorem Started.told (started : Started codec client next key spawn)
    (kept : Kept codec client nobody) :
    Told codec next.live next.sends next.marks next.wire next.heard next.nextWireId := by
  rw [started.sends, started.marks, started.wire, started.heard, started.minted]
  apply kept.told.later
  refine ⟨?_, fun _ _ same => same, fun _ member => List.mem_append.2 (Or.inl member),
    fun _ member => member, Nat.le_succ _⟩
  intro id bound dead
  exact (started.moved kept.registry id).trans ((if_neg (Nat.ne_of_lt bound)).trans dead)

theorem ensureServer_kept (kept : Kept codec client nobody) :
    Kept codec (client.ensureServer codec key spawn) nobody := by
  cases found : client.servers key with
  | some server =>
      unfold Client.ensureServer
      rw [found]
      exact kept
  | none =>
      have started : Started codec client (client.ensureServer codec key spawn) key spawn :=
        ensureServer_starts found
      have moved := started.moved kept.registry
      constructor
      · exact started.registry kept.registry
      · rw [started.wire, started.issued, started.minted]
        exact kept.wired.birth moved rfl rfl rfl rfl rfl
      · exact started.booked kept
      · exact started.told kept
      · rw [started.applies]
        intro apply member
        rcases kept.applies apply member with ⟨server, its⟩
        exact ⟨server, started.still kept.registry its⟩
      · intro id key' server its
        rw [moved id] at its
        split at its
        · cases its
          exact fun _ => rfl
        · exact kept.flushed id key' server its

/-! ### Responses -/

theorem flushQueued_kept (kept : Kept codec client nobody)
    (found : client.servers key = some server)
    (begun : .stdin server.id .initialized ∈ client.wire) :
    Kept codec ((client.update key { server with phase := .ready }).flushQueued key) nobody := by
  have there : (client.update key { server with phase := .ready }).servers key =
      some { server with phase := .ready } := if_pos rfl
  unfold Client.flushQueued
  simp only [there]
  rw [update_update]
  have now : (client.update key { server with phase := .ready, queued := [] }).servers key =
      some { server with phase := .ready, queued := [] } := if_pos rfl
  apply flush_kept server.queued now rfl
  refine update_kept kept found ?_ ?_ ?_ ?_ ?_
  · rfl
  · refine ⟨?_, List.Sublist.refl _, Int.le_refl _, Or.inr ⟨rfl, begun⟩⟩
    rw [inHand, if_pos rfl, nobody, List.append_nil]
    rfl
  · intro other own
    exact if_neg own
  · rw [inHand, if_pos rfl, nobody, List.filterMap_nil, List.append_nil]
    exact List.Perm.of_eq (by
      unfold Server.asks
      rw [List.filterMap_nil, List.append_nil])
  · intro _
    rfl

theorem onInitResult_kept {result : Except String Json} (kept : Kept codec client nobody)
    (found : client.servers key = some server) :
    Kept codec (client.onInitResult codec key server result) nobody := by
  unfold Client.onInitResult
  split
  · have own : ∀ op ∈ [WireOp.kill server.id], op.server = server.id := by
      intro op member
      rw [List.mem_singleton.1 member]
      rfl
    have quiet : ∀ op ∈ [WireOp.kill server.id], op.command? = none := by
      intro op member
      rw [List.mem_singleton.1 member]
      rfl
    exact retire_kept kept found ((remove_registry kept.registry found).congr rfl rfl rfl)
      (remove_moved kept.registry found) rfl own quiet (List.append_assoc ..)
      (Or.inr ⟨_, _, _, rfl⟩) rfl rfl rfl rfl applies_filtered
  · next init _ =>
      have emitted := emit_kept (.initialized key init) kept found
        (fun _ _ _ same => by cases same) rfl
      have greeted := sendMessage_kept key .initialized emitted (fun _ => rfl)
      have found' : ((client.emit server.id (.initialized key init)).sendMessage key
          .initialized).servers key = some server := by
        rw [sendMessage_servers]
        exact found
      have begun : .stdin server.id .initialized ∈
          ((client.emit server.id (.initialized key init)).sendMessage key .initialized).wire := by
        have there : (client.emit server.id (.initialized key init)).servers key = some server :=
          found
        simp only [Client.sendMessage, there]
        exact List.mem_append.2 (Or.inr (List.mem_cons_self ..))
      simp only
      split
      · next settings _ =>
          have told := sendMessage_kept key (.didChangeConfiguration settings) greeted
            (fun _ => rfl)
          apply flushQueued_kept told
          · rw [sendMessage_servers]
            exact found'
          · unfold Client.sendMessage at found' begun ⊢
            simp only [found'] at begun ⊢
            exact List.mem_append.2 (Or.inl begun)
      · exact flushQueued_kept greeted found' begun

omit [DecidableEq κ] in
/-- Under distinct ids, taking one entry off a table leaves the others. -/
theorem pending_take (distinct : (table.map Prod.fst).Nodup)
    (found : table.find? (·.1 == rid) = some (rid, pending)) :
    table.Perm (table.filter (·.1 != rid) ++ [(rid, pending)]) := by
  induction table with
  | nil => cases found
  | cons entry table ih =>
      rw [List.map_cons, List.nodup_cons] at distinct
      by_cases own : entry.1 = rid
      · have head : (entry.1 == rid) = true := beq_iff_eq.2 own
        simp only [List.find?_cons, head] at found
        cases found
        have rest : table.filter (fun other => other.1 != rid) = table := by
          apply List.filter_eq_self.2
          intro other member
          apply bne_iff_ne.2
          intro same
          apply distinct.1
          exact List.mem_map.2 ⟨other, member, same⟩
        rw [List.filter_cons_of_neg (by simp), rest]
        exact (List.perm_append_singleton _ _).symm
      · have head : (entry.1 == rid) = false := beq_eq_false_iff_ne.2 own
        simp only [List.find?_cons, head] at found
        have kept : (entry :: table).filter (fun other => other.1 != rid) =
            entry :: table.filter (fun other => other.1 != rid) :=
          List.filter_cons_of_pos (bne_iff_ne.2 own)
        rw [kept, List.cons_append]
        exact (ih distinct.2 found).cons entry

/-- The server without one entry of its table. -/
def Server.without (server : Server) (rid : Int) : Server :=
  { server with pending := server.pending.filter (·.1 != rid) }

omit [DecidableEq κ] in
theorem asks_take (distinct : (server.pending.map Prod.fst).Nodup)
    (found : server.pending.find? (·.1 == rid) = some (rid, pending)) :
    server.asks.Perm ((server.without rid).asks ++ pending.ask?.toList) := by
  have taken := (pending_take distinct found).filterMap fun entry => entry.2.ask?
  have last : [(rid, pending)].filterMap (fun entry => entry.2.ask?) = pending.ask?.toList := by
    cases pending <;> rfl
  rw [List.filterMap_append, last] at taken
  have swapped : ((server.without rid).pending.filterMap (fun entry => entry.2.ask?) ++
      pending.ask?.toList ++ server.queued.filterMap Outbound.ask?).Perm
        ((server.without rid).asks ++ pending.ask?.toList) := by
    unfold Server.asks
    rw [List.append_assoc, List.append_assoc]
    exact List.perm_append_comm.append_left _
  exact (taken.append_right _).trans swapped

theorem onResponse_kept (kept : Kept codec client nobody)
    (found : client.servers key = some server) (heard : (server.id, msg) ∈ client.heard)
    (responds : Responds msg rid)
    (fair : (∃ pending, (rid, pending) ∈ server.pending) → responseResult msg = dueResult msg) :
    Kept codec (client.onResponse codec key rid (responseResult msg)) nobody := by
  have there := kept.registry.live_of found
  have distinct := kept.wired.distinct server.id key server there
  have thinner : List.Sublist (server.without rid).pending server.pending := List.filter_sublist
  unfold Client.onResponse
  simp only [found]
  split
  · next entry taken =>
      have own := List.find?_some taken
      have same : entry = rid := by simpa using own
      subst same
      have kept' : Kept codec (client.update key (server.without entry)) nobody := by
        refine update_kept kept found ?_ ?_ ?_ ?_ ?_
        · rfl
        · exact ⟨rfl, thinner, Int.le_refl _, Or.inl rfl⟩
        · intro other _
          rfl
        · have taken' := asks_take distinct taken
          rw [nobody, List.filterMap_nil, List.append_nil, List.append_nil]
          have none : (Pending.handshake).ask?.toList = [] := rfl
          rw [none, List.append_nil] at taken'
          exact taken'.symm
        · exact kept.flushed server.id key server there
      exact onInitResult_kept kept' (if_pos rfl)
  · next entry serial token req taken =>
      have own := List.find?_some taken
      have same : entry = rid := by simpa using own
      subst same
      have inside := List.mem_of_find?_eq_some taken
      have due := fair ⟨_, inside⟩
      have carried := kept.wired.carried server.id key server entry serial token req there inside
      have moved : Moved client.live (client.update key (server.without entry)).live server.id
          (some (key, server.without entry)) := update_moved kept.registry found
      have now : (client.update key (server.without entry)).live server.id =
          some (key, server.without entry) := (moved server.id).trans (if_pos rfl)
      have still : ∀ {id : Nat} {key' : κ} {server' : Server},
          (client.update key (server.without entry)).live id = some (key', server') →
          ∃ server'', client.live id = some (key', server'') ∧
            Settled (client.wire ++ []) id (nobody id) (nobody id) server'' server' := by
        intro id key' server' its
        rcases moved.live_cases its with ⟨rfl, rfl, rfl⟩ | ⟨-, was⟩
        · exact ⟨server, there, rfl, thinner, Int.le_refl _, Or.inl rfl⟩
        · exact ⟨server', was, settled_refl ..⟩
      have asks : (asksAt client.live nobody server.id).Perm
          (asksAt (client.update key (server.without entry)).live nobody server.id ++
            [(key, ⟨serial, token, req⟩)]) := by
        rw [asksAt_live there, asksAt_live now]
        have taken' := (asks_take distinct taken).map fun ask => (key, ask)
        rw [List.map_append] at taken'
        rw [nobody, List.filterMap_nil, List.append_nil, List.append_nil]
        exact taken'
      have known := kept.booked.known server.id (key, ⟨serial, token, req⟩)
        (asks.mem_iff.2 (List.mem_append.2 (Or.inr (List.mem_cons_self ..))))
      constructor
      · have same : (server.without entry).id = server.id := rfl
        exact (update_registry kept.registry found same).congr rfl rfl rfl
      · have wired : Wired (client.update key (server.without entry)).live nobody
            (client.wire ++ []) client.issued client.nextWireId :=
          kept.wired.still (fun _ _ _ its => still its)
            (fun _ member => (List.not_mem_nil member).elim)
            (fun _ member => (List.not_mem_nil member).elim)
        rw [List.append_nil] at wired
        exact wired
      · apply kept.booked.settle asks
        · intro other differs
          exact asksAt_congr ((moved other).trans (if_neg differs)) rfl
        · exact List.Perm.refl _
      · have later : Later client.live (client.update key (server.without entry)).live client.sends
            client.sends client.wire client.wire client.heard client.heard client.nextWireId
            client.nextWireId := by
          refine ⟨?_, fun _ _ same => same, fun _ member => member, fun _ member => member,
            Nat.le_refl _⟩
          intro id _ dead
          exact moved.dead there dead
        apply kept.told.settle later
        · intro id its
          cases its
          rw [there]
          exact ⟨Option.some_ne_none _, kept.registry.live_lt there⟩
        · exact known
        · rfl
        · exact ⟨server.id, msg, rfl, carried, heard, responds, by rw [due]⟩
        · rfl
      · intro apply member
        exact moved.keyed there (kept.applies apply member)
      · intro id key' server' its
        rcases moved.live_cases its with ⟨-, -, rfl⟩ | ⟨-, was⟩
        · exact kept.flushed server.id key server there
        · exact kept.flushed id key' server' was
  · exact kept

/-! ### Messages -/

omit [DecidableEq κ] in
theorem responseResult_due (fair : msg.get "error" ≠ some .null) :
    responseResult msg = dueResult msg := by
  unfold responseResult dueResult
  cases error : msg.get "error" with
  | none => rfl
  | some err =>
      cases err with
      | null => exact absurd error fair
      | _ => rfl

omit [DecidableEq κ] in
theorem onServerRequest_kept {reqId : Json} {method : String} (kept : Kept codec client nobody)
    (found : client.servers key = some server) :
    Kept codec (client.onServerRequest codec key server reqId method msg) nobody := by
  have answered : ∀ event, (∀ key token reply, event ≠ LspEvent.reply key token reply) →
      (Mark.mk event (some server.id) none).isExit = false → ∀ result,
      Kept codec ((client.emit server.id event).sendMessage key (.response reqId result)) nobody :=
    fun event noReply noExit result =>
      sendMessage_kept key _ (emit_kept event kept found noReply noExit) (fun _ => rfl)
  unfold Client.onServerRequest
  simp only
  split
  · exact sendMessage_kept key _ kept (fun _ => rfl)
  · exact answered _ (fun _ _ _ same => by cases same) rfl _
  · exact answered _ (fun _ _ _ same => by cases same) rfl _
  · split
    · next changes _ =>
        refine emit_kept _ ?_ found (fun _ _ _ same => by cases same) rfl
        refine kept.beside rfl rfl (List.append_nil _).symm
          (fun _ member => (List.not_mem_nil member).elim)
          (fun _ member => (List.not_mem_nil member).elim) (List.append_nil _).symm
          (fun _ member => (List.not_mem_nil member).elim) rfl rfl rfl (fun _ member => member) ?_
        intro apply member
        rcases List.mem_append.1 member with before | new
        · exact kept.applies apply before
        · rw [List.mem_singleton.1 new]
          exact ⟨server, kept.registry.live_of found⟩
    · exact sendMessage_kept key _ kept (fun _ => rfl)
  · exact sendMessage_kept key _ kept (fun _ => rfl)
  · exact answered _ (fun _ _ _ same => by cases same) rfl _
  · exact answered _ (fun _ _ _ same => by cases same) rfl _
  · exact sendMessage_kept key _ kept (fun _ => rfl)
  · exact sendMessage_kept key _ kept (fun _ => rfl)

omit [DecidableEq κ] in
theorem onServerNotification_kept {method : String} (kept : Kept codec client nobody)
    (found : client.servers key = some server) :
    Kept codec (client.onServerNotification codec key server method msg) nobody := by
  unfold Client.onServerNotification
  split
  · split
    · exact emit_kept _ kept found (fun _ _ _ same => by cases same) rfl
    · exact emit_kept _ kept found (fun _ _ _ same => by cases same) rfl
    · exact emit_kept _ kept found (fun _ _ _ same => by cases same) rfl
    · exact kept
  · exact kept

theorem handleMessage_kept (kept : Kept codec client nobody) (fair : ¬ NullError client key msg) :
    Kept codec (client.handleMessage codec key msg) nobody := by
  unfold Client.handleMessage
  cases found : client.servers key with
  | none => exact kept
  | some server =>
      have heard : Kept codec { client with heard := client.heard ++ [(server.id, msg)] } nobody :=
        kept.beside rfl rfl (List.append_nil _).symm
          (fun _ member => (List.not_mem_nil member).elim)
          (fun _ member => (List.not_mem_nil member).elim) (List.append_nil _).symm
          (fun _ member => (List.not_mem_nil member).elim) rfl rfl rfl
          (fun _ member => List.mem_append.2 (Or.inl member)) kept.applies
      simp only
      split
      · exact onServerRequest_kept heard found
      · exact onServerNotification_kept heard found
      · next reqId noMethod its =>
          split
          · next rid numeric =>
              apply onResponse_kept heard found
              · exact List.mem_append.2 (Or.inr (List.mem_cons_self ..))
              · exact ⟨noMethod, reqId, its, numeric⟩
              · intro waits
                apply responseResult_due
                intro isNull
                exact fair ⟨server, reqId, rid, found, noMethod, its, numeric, waits, isNull⟩
          · exact heard
      · exact heard

theorem handleAll_kept (msgs : List Json) :
    ∀ {client : Client κ}, Kept codec client nobody → NoNullError codec client key msgs →
      Kept codec (client.handleAll codec key msgs) nobody := by
  induction msgs with
  | nil =>
      intro client kept _
      exact kept
  | cons msg msgs ih =>
      intro client kept fair
      exact ih (handleMessage_kept kept fair.1) fair.2

/-! ### Responses -/

/-- The reply a response brings to the request that waits under its id. -/
def answerMark (codec : Codec κ) (key : κ) (id : Nat) (rid : Int) (ask : Ask) (msg : Json) :
    Mark κ :=
  ⟨.reply key ask.token (codec.reply ask.req (dueResult msg)), some id,
    some (ask.serial, .answered rid)⟩

/-- A response to a pending request is its reply, and nothing else is said. -/
def Answers (codec : Codec κ) (client next : Client κ) (key : κ) (msg : Json) : Prop :=
  ∀ server rid serial token req, client.servers key = some server → Responds msg rid →
    (rid, .feature serial token req) ∈ server.pending →
    next.marks = client.marks ++ [answerMark codec key server.id rid ⟨serial, token, req⟩ msg]

/-- Each of the messages, taken one after the other, is answered so. -/
def AllAnswered (codec : Codec κ) : Client κ → κ → List Json → Prop
  | _, _, [] => True
  | client, key, msg :: rest =>
      Answers codec client (client.handleMessage codec key msg) key msg ∧
        AllAnswered codec (client.handleMessage codec key msg) key rest

omit [DecidableEq κ] in
/-- Under distinct ids a lookup finds the entry that is there. -/
theorem pending_find (distinct : (table.map Prod.fst).Nodup) (member : (rid, pending) ∈ table) :
    table.find? (·.1 == rid) = some (rid, pending) := by
  cases found : table.find? (·.1 == rid) with
  | none => simpa using List.find?_eq_none.1 found _ member
  | some entry =>
      have own : entry.1 = rid := by simpa using List.find?_some found
      have inside := List.mem_of_find?_eq_some found
      rw [List.inj_on_of_nodup_map distinct inside member own]

theorem handleMessage_answers (kept : Kept codec client nobody)
    (fair : ¬ NullError client key msg) :
    Answers codec client (client.handleMessage codec key msg) key msg := by
  rintro server rid serial token req found ⟨noMethod, reqId, its, numeric⟩ waits
  have distinct := kept.wired.distinct server.id key server (kept.registry.live_of found)
  have due : responseResult msg = dueResult msg := by
    apply responseResult_due
    intro isNull
    exact fair ⟨server, reqId, rid, found, noMethod, its, numeric, ⟨_, waits⟩, isNull⟩
  unfold Client.handleMessage
  simp only [found, noMethod, its, numeric]
  unfold Client.onResponse
  simp only [found, pending_find distinct waits, due]
  rfl

theorem handleAll_answers (msgs : List Json) :
    ∀ {client : Client κ}, Kept codec client nobody → NoNullError codec client key msgs →
      AllAnswered codec client key msgs := by
  induction msgs with
  | nil =>
      intro client _ _
      trivial
  | cons msg msgs ih =>
      intro client kept fair
      exact ⟨handleMessage_answers kept fair.1, ih (handleMessage_kept kept fair.1) fair.2⟩

/-- The buffer of a live server changes nothing else. -/
theorem inbuf_kept (kept : Kept codec client nobody) (found : client.servers key = some server)
    (inbuf : List UInt8) :
    Kept codec (client.update key { server with inbuf := inbuf }) nobody := by
  refine update_kept kept found ?_ ?_ ?_ ?_ ?_
  · rfl
  · exact ⟨rfl, List.Sublist.refl _, Int.le_refl _, Or.inl rfl⟩
  · intro other _
    rfl
  · exact List.Perm.refl _
  · exact kept.flushed server.id key server (kept.registry.live_of found)

theorem feedStdout_kept {id : Nat} {bytes : List UInt8} (kept : Kept codec client nobody)
    (meets : Meets codec client (.feedStdout id bytes)) :
    Kept codec (client.feedStdout codec id bytes) nobody := by
  unfold Client.feedStdout
  split
  · next key routed =>
      split
      · next server found =>
          exact handleAll_kept _ (inbuf_kept kept found _) (meets key server routed found)
      · exact kept
  · exact kept

/-! ### Runs -/

theorem step_kept {event : Event κ} (kept : Kept codec client nobody)
    (meets : Meets codec client event) (stepped : step codec client event = some next) :
    Kept codec next nobody := by
  cases event with
  | ensureServer key spawn =>
      cases stepped
      exact ensureServer_kept kept
  | notify key note =>
      cases stepped
      exact notify_kept kept meets
  | request key token req =>
      cases stepped
      exact request_kept kept meets
  | shutdown key =>
      cases stepped
      exact shutdown_kept kept
  | applyEditResponse id outcome =>
      cases stepped
      exact applyEditResponse_kept kept
  | feedStdout id bytes =>
      cases stepped
      exact feedStdout_kept kept meets
  | exited id code signal =>
      cases stepped
      exact exited_kept kept

omit [DecidableEq κ] in
theorem new_kept : Kept codec (Client.new : Client κ) nobody := by
  constructor
  · constructor
    · intro key server found
      cases found
    · intro id key routed
      cases routed
    · intro id _
      rfl
  · constructor
    · intro op member
      cases member
    · intro command member
      cases member
    · intro id key server there
      cases there
    · intro id
      exact List.prefix_refl _
    · intro id key server there
      cases there
    · intro id key server there
      cases there
    · exact lawful_nil
    · intro id key server rid serial req there
      cases there
    · intro id rid serial req serial' req' member
      cases member
    · intro id key server there
      cases there
    · intro id key server there
      cases there
    · intro id key server rid serial token req there
      cases there
  · constructor
    · apply Book.nil.reorder
      intro holder
      cases holder <;> exact List.Perm.refl _
    · intro id entry member
      cases member
  · constructor
    · intro mark member
      cases member
    · intro mark member
      cases member
    · exact lawful_nil
    · intro mark member
      cases member
    · intro mark member
      cases member
  · intro apply member
    cases member
  · intro id key server there
    cases there

end

/-- The parser gives the messages of a framed stream, however it is cut. -/
theorem parse_cuts (codec : Codec κ) {frames : List (List UInt8)} {messages : List Json}
    {chunks : List (List UInt8)} (framed : List.Forall₂ (Frame codec.fromSlice) frames messages)
    (whole : chunks.flatten = frames.flatten) :
    Framing.feedAll (parseFrames codec.fromSlice) chunks = (messages, []) :=
  Framing.feedAll_eq (framing codec.fromSlice) framed whole

/-- **The synchronous client settles every request once.**  In every run without an overflow kill
that has a request queued, and without a response to a request whose error is `null`: a request
is at its live server or settled, one of the two and once, and settled when that server is gone;
it is settled by a response that carries its id, with its result unless there is an error object,
or emptily because its server was removed, or refused; each response that is fed to its server while
the request under its id is pending is that request's reply; the commands of a server reach the
wire in order and behind `initialized`, all of them while it is ready; nothing about a server comes
behind its exit; the tables name live servers only; and a framed stream is read whatever its
cuts. -/
theorem client_settles_once [DecidableEq κ] {codec : Codec κ} {events : List (Event κ)}
    {client : Client κ} (along : Along (Meets codec) (step codec) .new events)
    (reached : run (step codec) .new events = some client) :
    (∀ (serial : Nat) sent, client.sends[serial]? = some sent →
      (heldBy client.live nobody sent.server).count serial +
          (settledBy client.marks).count serial = 1 ∧
      ((∀ id, sent.server = some id → client.live id = none) →
        (settledBy client.marks).count serial = 1)) ∧
    (∀ mark ∈ client.marks,
      (∀ serial origin, mark.settles = some (serial, origin) →
        ∃ sent, client.sends[serial]? = some sent ∧ mark.server = sent.server ∧
          Settles codec client.live client.wire client.heard sent mark.event serial origin) ∧
      (mark.settles = none → ∀ key token reply, mark.event ≠ .reply key token reply)) ∧
    (∀ id rid serial req serial' req', .stdin id (.request rid serial req) ∈ client.wire →
      .stdin id (.request rid serial' req') ∈ client.wire → serial = serial' ∧ req = req') ∧
    (∀ id, List.IsPrefix (sentTo id client.wire) (commandsTo id client.issued)) ∧
    (∀ id key server, client.live id = some (key, server) → server.phase = .ready →
      sentTo id client.wire = commandsTo id client.issued) ∧
    Lawful Begun client.wire ∧
    Lawful NotAfterExit client.marks ∧
    (∀ id key, client.byId id = some key →
      ∃ server, client.servers key = some server ∧ server.id = id) ∧
    (∀ apply ∈ client.pendingApply,
      ∃ server, client.live apply.server = some (apply.key, server)) ∧
    (∀ id bytes key server, client.byId id = some key → client.servers key = some server →
      Meets codec client (.feedStdout id bytes) →
        let parsed := parseFrames codec.fromSlice (server.inbuf ++ bytes)
        AllAnswered codec (client.update key { server with inbuf := parsed.2 }) key parsed.1) ∧
    ∀ (frames : List (List UInt8)) messages (chunks : List (List UInt8)),
      List.Forall₂ (Frame codec.fromSlice) frames messages → chunks.flatten = frames.flatten →
      Framing.feedAll (parseFrames codec.fromSlice) chunks = (messages, []) := by
  have kept : Kept codec client nobody :=
    run_along (fun client => Kept codec client nobody)
      (fun _ _ _ kept meets stepped => step_kept kept meets stepped) new_kept along reached
  refine ⟨?_, ?_, kept.wired.single, kept.wired.short, ?_, kept.wired.begun, kept.told.last,
    kept.registry.routed, kept.applies, ?_,
    fun _ _ _ framed whole => parse_cuts codec framed whole⟩
  · intro serial sent found
    have owner : (client.sends.map (·.server))[serial]? = some sent.server := by
      rw [List.getElem?_map, found]
      rfl
    have once := kept.booked.book.once serial sent.server owner
    refine ⟨once, ?_⟩
    intro gone
    have nothing : heldBy client.live nobody sent.server = [] := by
      cases its : sent.server with
      | none => rfl
      | some id =>
          unfold heldBy asksAt
          simp only [gone id its, List.map_nil]
    rw [nothing, List.count_nil, Nat.zero_add] at once
    exact once
  · intro mark member
    exact ⟨kept.told.settles mark member, kept.told.plain mark member⟩
  · intro id key server there ready
    have order := kept.wired.order id key server there
    rw [kept.flushed id key server there ready, nobody, List.append_nil, List.map_nil,
      List.append_nil] at order
    exact order
  · intro id bytes key server routed found meets
    exact handleAll_answers _ (inbuf_kept kept found _) (meets key server routed found)

/-! ### Two runs -/

def handshakeBody : List UInt8 := "\x7b\"id\":1,\"result\":\x7b\x7d\x7d".toUTF8.data.toList

def answerBody : List UInt8 :=
  "\x7b\"id\":2,\"result\":7,\"error\":null\x7d".toUTF8.data.toList

def handshakeJson : Json := .obj [("id", .int 1), ("result", .obj [])]

def answerJson : Json := .obj [("id", .int 2), ("result", .int 7), ("error", .null)]

def askCodec : Codec Unit where
  fromSlice := fun body =>
    [(handshakeBody, handshakeJson), (answerBody, answerJson)].lookup body
  initParams := fun _ _ => .null
  readInit := .ok
  distill := fun _ value => .raw (.ok value)
  tryNormalizeWorkspaceEdit := .ok
  configurationReply := fun _ _ => []
  workspaceFolders := fun _ _ => .null
  notificationParams := fun _ _ => none
  dynRequestMethods := ["ask"]
  dynNotifyMethods := []

def askSpawn : ServerSpawn := ⟨"server", [], none, [], none, none⟩

/-- A request made during the handshake, and the server dies. -/
def diesInHandshake : List (Event Unit) :=
  [.ensureServer () askSpawn, .request () 5 (.raw "ask" .null), .exited 1 (some 1) none]

theorem client_settles_once_exit : ∃ client,
    run (step askCodec) .new diesInHandshake = some client ∧
      (settledBy client.marks).count 0 = 1 := by
  have along : Along (Meets askCodec) (step askCodec) .new diesInHandshake := by
    refine ⟨trivial, ?_⟩
    rintro next ⟨⟩
    refine ⟨?_, ?_⟩
    · rintro - ⟨server, found, -, full, -⟩
      cases found
      cases full
    rintro next ⟨⟩
    refine ⟨trivial, ?_⟩
    rintro next ⟨⟩
    trivial
  refine ⟨_, rfl, ?_⟩
  apply ((client_settles_once along rfl).1 0 _ rfl).2
  rintro id ⟨⟩
  rfl

/-- The server answers `"result":7,"error":null`. -/
def nullError : List (Event Unit) :=
  [.ensureServer () askSpawn,
    .feedStdout 1 ("Content-Length: 20\r\n\r\n".toUTF8.data.toList ++ handshakeBody),
    .request () 5 (.raw "ask" .null),
    .feedStdout 1 ("Content-Length: 32\r\n\r\n".toUTF8.data.toList ++ answerBody)]

/-- The result is lost: the reply is an error. -/
theorem null_error_fails : ∃ client sent, ∃ mark ∈ client.marks,
    run (step askCodec) .new nullError = some client ∧ client.sends[0]? = some sent ∧
      mark.settles = some (0, .answered 2) ∧
      mark.event = .reply () 5 (.raw (.error "lsp error")) ∧
      ¬ Settles askCodec client.live client.wire client.heard sent mark.event 0 (.answered 2) := by
  cases reached : run (step askCodec) .new nullError with
  | none => cases reached
  | some client =>
      have told : client.marks = [⟨.initialized () (.obj []), some 1, none⟩,
          ⟨.reply () 5 (.raw (.error "lsp error")), some 1, some (0, .answered 2)⟩] := by
        cases reached
        rfl
      have asked : client.sends[0]? = some ⟨(), some 1, 5, .raw "ask" .null⟩ := by
        cases reached
        rfl
      have spoken : client.heard = [(1, handshakeJson), (1, answerJson)] := by
        cases reached
        rfl
      refine ⟨client, _, ⟨.reply () 5 (.raw (.error "lsp error")), some 1,
        some (0, .answered 2)⟩, ?_, rfl, asked, rfl, rfl, ?_⟩
      · rw [told]
        exact List.mem_cons_of_mem _ (List.mem_cons_self ..)
      · rintro ⟨id, msg, -, -, heard, ⟨-, reqId, its, carried⟩, event⟩
        rw [spoken] at heard
        rcases List.mem_cons.1 heard with first | second
        · rcases Prod.mk.inj first with ⟨-, rfl⟩
          cases its
          cases carried
        · rcases Prod.mk.inj (List.mem_singleton.1 second) with ⟨-, rfl⟩
          cases event

end Bemtvi.Lsp.SyncClient
