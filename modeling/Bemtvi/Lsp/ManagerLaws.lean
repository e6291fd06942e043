/-
Module: Bemtvi.Lsp.ManagerLaws
Purpose: Every request sent into a per-server channel is in one place at a time, the channel, an
  instance's flights or the replies, whatever the order of commands, deaths, backoffs and respawns.
Trusted boundary: none
Main exports: Ledger, Alive, step_kept, step_backed, manager_settles_once
-/
import Bemtvi.Lsp.Manager

namespace Bemtvi.Lsp.Manager

open Bemtvi.Run (run run_invariant run_history)

variable {κ α : Type}

/-! ### Requests, wherever they are -/

/-- A request as it lies in a channel. -/
structure Ask (κ α : Type) where
  serial : Nat
  key : κ
  token : ReqToken
  req : LspRequest α

/-- The requests of a channel. -/
def asksOf (key : κ) (queue : List (ServerMsg α)) : List (Ask κ α) :=
  queue.filterMap fun
    | .request serial token req => some ⟨serial, key, token, req⟩
    | _ => none

/-- The requests queued for a task. -/
def World.asked (world : World κ α) (id : Nat) : List (Ask κ α) :=
  match world.tasks id with
  | some task => asksOf task.key task.queue
  | none => []

def Mark.issues (serial : Nat) : Mark κ α → Bool
  | .issued serial' _ => serial' == serial
  | _ => false

/-- The degraded reply of a request that was still queued. -/
def Mark.degrades (serial : Nat) : Mark κ α → Bool
  | .reply _ _ _ serial' none => serial' == serial
  | _ => false

/-- The reply of a request that was issued. -/
def Mark.answers (serial : Nat) : Mark κ α → Bool
  | .reply _ _ _ serial' (some _) => serial' == serial
  | _ => false

/-- Neither hands a request over nor settles one. -/
def Mark.Quiet : Mark κ α → Prop
  | .issued _ _ | .reply _ _ _ _ _ => False
  | _ => True

def World.issued (world : World κ α) (serial : Nat) : Nat := world.marks.countP (·.issues serial)

def World.degraded (world : World κ α) (serial : Nat) : Nat :=
  world.marks.countP (·.degrades serial)

def World.answered (world : World κ α) (serial : Nat) : Nat :=
  world.marks.countP (·.answers serial)

/-- How many Reply events a request got. -/
def World.replies (world : World κ α) (serial : Nat) : Nat :=
  world.degraded serial + world.answered serial

def World.queued (world : World κ α) (id serial : Nat) : Nat :=
  (world.asked id).countP (·.serial == serial)

def World.flying (world : World κ α) (serial : Nat) : Nat :=
  world.flights.countP (·.serial == serial)

/-- What a flight keeps until it lands. -/
def Flight.stub (flight : Flight κ α) : Ask κ α × Nat :=
  (⟨flight.serial, flight.key, flight.token, flight.req⟩, flight.inst)

@[simp] theorem asksOf_nil (key : κ) : asksOf key ([] : List (ServerMsg α)) = [] := rfl

@[simp] theorem asksOf_request (key : κ) (serial : Nat) (token : ReqToken) (req : LspRequest α)
    (rest : List (ServerMsg α)) :
    asksOf key (.request serial token req :: rest) =
      ⟨serial, key, token, req⟩ :: asksOf key rest := rfl

theorem asksOf_append (key : κ) (front back : List (ServerMsg α)) :
    asksOf key (front ++ back) = asksOf key front ++ asksOf key back :=
  List.filterMap_append

/-- What a drain says is a reply for each request of the channel. -/
theorem drainQueued_eq (key : κ) (reason : String) (queue : List (ServerMsg α)) :
    drainQueued key reason queue = (asksOf key queue).map fun ask =>
      .reply ask.key ask.token (degradeRequest ask.req reason) ask.serial none := by
  induction queue with
  | nil => rfl
  | cons msg rest ih =>
      cases msg with
      | request serial token req =>
          rw [asksOf_request, List.map_cons, ← ih]
          rfl
      | notify note => exact ih
      | applyEditResponse id outcome => exact ih
      | shutdown => exact ih

/-! ### The ledger -/

/-- Every request is accounted for. -/
structure Ledger (world : World κ α) : Prop where
  owned : ∀ id, ∀ ask ∈ world.asked id,
    world.sends[ask.serial]? = some ⟨id, ask.key, ask.token, ask.req⟩
  flown : ∀ flight ∈ world.flights,
    (∃ id, world.sends[flight.serial]? = some ⟨id, flight.key, flight.token, flight.req⟩) ∧
      .issued flight.serial flight.inst ∈ world.marks
  issued : ∀ serial inst, .issued serial inst ∈ world.marks → serial < world.sends.length
  replied : ∀ key token reply serial inst, .reply key token reply serial inst ∈ world.marks →
    ∃ id req, world.sends[serial]? = some ⟨id, key, token, req⟩ ∧
      match inst with
      | none => ∃ reason, reply = degradeRequest req reason
      | some inst => .issued serial inst ∈ world.marks
  /-- Queued, handed to a socket or degraded. -/
  once : ∀ serial sent, world.sends[serial]? = some sent →
    world.queued sent.task serial + world.issued serial + world.degraded serial = 1
  /-- Handed to a socket: in flight or answered. -/
  aloft : ∀ serial, world.issued serial = world.flying serial + world.answered serial

variable {world next : World κ α}

theorem issued_loud {serial inst : Nat} : ¬ (Mark.issued serial inst : Mark κ α).Quiet := id

variable {key : κ} {reply : LspReply α} {token : ReqToken} {said : List (Mark κ α)} {id : Nat}
  {req : LspRequest α} {reason : String} {task task' : Task κ α} {msg : ServerMsg α}

theorem reply_loud {serial : Nat} {inst : Option Nat} :
    ¬ (Mark.reply key token reply serial inst).Quiet := id

theorem quiet_counts (quiet : ∀ mark ∈ said, mark.Quiet) (serial : Nat) :
    said.countP (·.issues serial) = 0 ∧ said.countP (·.degrades serial) = 0 ∧
      said.countP (·.answers serial) = 0 := by
  refine ⟨?_, ?_, ?_⟩
  all_goals
    apply List.countP_eq_zero.2
    intro mark member
    have silent := quiet mark member
    cases mark <;> first | exact silent.elim | exact Bool.false_ne_true

theorem nothing_quiet : ∀ mark ∈ ([] : List (Mark κ α)), mark.Quiet :=
  fun _ member => (List.not_mem_nil member).elim

/-- A step that neither sends, issues nor settles. -/
theorem Ledger.still (ledger : Ledger world) (asked : ∀ id, next.asked id = world.asked id)
    (sends : next.sends = world.sends)
    (flights : next.flights.map Flight.stub = world.flights.map Flight.stub)
    (marks : next.marks = world.marks ++ said) (quiet : ∀ mark ∈ said, mark.Quiet) :
    Ledger next := by
  have older : ∀ {mark : Mark κ α}, mark ∈ world.marks → mark ∈ next.marks := by
    intro mark member
    rw [marks]
    exact List.mem_append.2 (Or.inl member)
  have loud : ∀ {mark : Mark κ α}, ¬ mark.Quiet → mark ∈ next.marks → mark ∈ world.marks := by
    intro mark notQuiet member
    rw [marks] at member
    rcases List.mem_append.1 member with old | new
    · exact old
    · exact absurd (quiet mark new) notQuiet
  have issued : ∀ serial, next.issued serial = world.issued serial := by
    intro serial
    unfold World.issued
    rw [marks, List.countP_append, (quiet_counts quiet serial).1, Nat.add_zero]
  have degraded : ∀ serial, next.degraded serial = world.degraded serial := by
    intro serial
    unfold World.degraded
    rw [marks, List.countP_append, (quiet_counts quiet serial).2.1, Nat.add_zero]
  have answered : ∀ serial, next.answered serial = world.answered serial := by
    intro serial
    unfold World.answered
    rw [marks, List.countP_append, (quiet_counts quiet serial).2.2, Nat.add_zero]
  have flying : ∀ serial, next.flying serial = world.flying serial := by
    intro serial
    have through : ∀ flights : List (Flight κ α),
        flights.countP (·.serial == serial) =
          (flights.map Flight.stub).countP (·.1.serial == serial) := by
      intro flights
      rw [List.countP_map]
      rfl
    unfold World.flying
    rw [through, flights, ← through]
  constructor
  · intro id ask member
    rw [sends]
    rw [asked] at member
    exact ledger.owned id ask member
  · intro flight member
    have stubbed : flight.stub ∈ world.flights.map Flight.stub := by
      rw [← flights]
      exact List.mem_map_of_mem member
    rcases List.mem_map.1 stubbed with ⟨flight', there, same⟩
    rcases ledger.flown flight' there with ⟨⟨id, sent⟩, handed⟩
    cases flight
    cases flight'
    cases same
    rw [sends]
    exact ⟨⟨id, sent⟩, older handed⟩
  · intro serial inst member
    rw [sends]
    exact ledger.issued serial inst (loud issued_loud member)
  · intro key token reply serial inst member
    rcases ledger.replied key token reply serial inst (loud reply_loud member) with ⟨id, req, sent, how⟩
    refine ⟨id, req, by rw [sends]; exact sent, ?_⟩
    cases inst with
    | none => exact how
    | some inst => exact older how
  · intro serial sent found
    rw [sends] at found
    unfold World.queued
    rw [asked, issued, degraded]
    exact ledger.once serial sent found
  · intro serial
    rw [issued, flying, answered]
    exact ledger.aloft serial

/-- A request that was not sent yet is nowhere. -/
theorem Ledger.absent (ledger : Ledger world) :
    world.issued world.sends.length = 0 ∧ world.degraded world.sends.length = 0 ∧
      ∀ id, world.queued id world.sends.length = 0 := by
  refine ⟨?_, ?_, ?_⟩
  · apply List.countP_eq_zero.2
    intro mark member issues
    cases mark with
    | issued serial inst =>
        have bound := ledger.issued serial inst member
        have same : serial = world.sends.length := by simpa [Mark.issues] using issues
        omega
    | _ => cases issues
  · apply List.countP_eq_zero.2
    intro mark member degrades
    cases mark with
    | reply key token reply serial inst =>
        cases inst with
        | none =>
            rcases ledger.replied key token reply serial none member with ⟨id, req, sent, -⟩
            have same : serial = world.sends.length := by simpa [Mark.degrades] using degrades
            rw [same, List.getElem?_eq_none (Nat.le_refl _)] at sent
            cases sent
        | some inst => cases degrades
    | _ => cases degrades
  · intro id
    apply List.countP_eq_zero.2
    intro ask member asks
    have sent := ledger.owned id ask member
    have same : ask.serial = world.sends.length := by simpa using asks
    rw [same, List.getElem?_eq_none (Nat.le_refl _)] at sent
    cases sent

/-- The supervisor sends a request into a task's channel. -/
theorem Ledger.send (ledger : Ledger world) (asked : ∀ other, next.asked other =
      if other = id then world.asked id ++ [⟨world.sends.length, key, token, req⟩]
      else world.asked other) (sends : next.sends = world.sends ++ [⟨id, key, token, req⟩])
    (flights : next.flights = world.flights) (marks : next.marks = world.marks) :
    Ledger next := by
  have kept : ∀ {serial : Nat} {sent : Sent κ α}, world.sends[serial]? = some sent →
      next.sends[serial]? = some sent := by
    intro serial sent found
    rw [sends, List.getElem?_append_left (List.getElem?_eq_some_iff.1 found).1]
    exact found
  constructor
  · intro other ask member
    rw [asked] at member
    split at member
    · next same =>
        rcases List.mem_append.1 member with old | new
        · rw [same]
          exact kept (ledger.owned id ask old)
        · rw [List.mem_singleton.1 new, sends, same]
          exact List.getElem?_concat_length
    · exact kept (ledger.owned other ask member)
  · intro flight member
    rw [flights] at member
    rcases ledger.flown flight member with ⟨⟨task, sent⟩, handed⟩
    rw [marks]
    exact ⟨⟨task, kept sent⟩, handed⟩
  · intro serial inst member
    rw [marks] at member
    rw [sends, List.length_append]
    exact Nat.lt_add_right _ (ledger.issued serial inst member)
  · intro key' token' reply serial inst member
    rw [marks] at member ⊢
    rcases ledger.replied key' token' reply serial inst member with ⟨task, req', sent, how⟩
    exact ⟨task, req', kept sent, how⟩
  · intro serial sent found
    unfold World.queued World.issued World.degraded
    rw [asked, marks]
    by_cases new : serial = world.sends.length
    · rcases ledger.absent with ⟨noIssue, noDegrade, noQueue⟩
      subst new
      rw [sends, List.getElem?_concat_length] at found
      cases found
      rw [if_pos rfl, List.countP_append]
      unfold World.issued at noIssue
      unfold World.degraded at noDegrade
      have none := noQueue id
      unfold World.queued at none
      rw [noIssue, noDegrade, none]
      simp
    · have old : world.sends[serial]? = some sent := by
        rw [sends] at found
        rcases List.getElem?_eq_some_iff.1 found with ⟨bound, -⟩
        rw [List.length_append, List.length_singleton] at bound
        rw [List.getElem?_append_left (by omega)] at found
        exact found
      have once := ledger.once serial sent old
      unfold World.queued World.issued World.degraded at once
      split
      · next same =>
          rw [same] at once
          have other : ¬ world.sends.length = serial := fun same => new same.symm
          simpa [List.countP_append, other] using once
      · exact once
  · intro serial
    unfold World.issued World.flying World.answered
    rw [marks, flights]
    exact ledger.aloft serial

/-- The serve loop hands the first request of its channel to a socket. -/
theorem Ledger.hand {inst : Nat} {ask : Ask κ α} {rest : List (Ask κ α)} (ledger : Ledger world)
    (head : world.asked id = ask :: rest)
    (asked : ∀ other, next.asked other = if other = id then rest else world.asked other)
    (sends : next.sends = world.sends) (flights : next.flights =
      world.flights ++ [⟨ask.serial, ask.key, ask.token, ask.req, inst, none⟩])
    (marks : next.marks = world.marks ++ [.issued ask.serial inst]) : Ledger next := by
  have member : ask ∈ world.asked id := by
    rw [head]
    exact List.mem_cons_self ..
  have sent := ledger.owned id ask member
  have older : ∀ {mark : Mark κ α}, mark ∈ world.marks → mark ∈ next.marks := by
    intro mark there
    rw [marks]
    exact List.mem_append.2 (Or.inl there)
  have handed : .issued ask.serial inst ∈ next.marks := by
    rw [marks]
    exact List.mem_append.2 (Or.inr (List.mem_cons_self ..))
  constructor
  · intro other ask' member'
    rw [sends]
    rw [asked] at member'
    split at member'
    · next same =>
        rw [same]
        apply ledger.owned id ask'
        rw [head]
        exact List.mem_cons_of_mem _ member'
    · exact ledger.owned other ask' member'
  · intro flight there
    rw [flights] at there
    rw [sends]
    rcases List.mem_append.1 there with old | new
    · rcases ledger.flown flight old with ⟨known, before⟩
      exact ⟨known, older before⟩
    · rw [List.mem_singleton.1 new]
      exact ⟨⟨id, sent⟩, handed⟩
  · intro serial inst' there
    rw [marks] at there
    rw [sends]
    rcases List.mem_append.1 there with old | new
    · exact ledger.issued serial inst' old
    · cases List.mem_singleton.1 new
      exact (List.getElem?_eq_some_iff.1 sent).1
  · intro key token reply serial inst' there
    rw [marks] at there
    rw [sends]
    rcases List.mem_append.1 there with old | new
    · rcases ledger.replied key token reply serial inst' old with ⟨task, req, sent', how⟩
      refine ⟨task, req, sent', ?_⟩
      cases inst' with
      | none => exact how
      | some inst' => exact older how
    · cases List.mem_singleton.1 new
  · intro serial sent' found
    rw [sends] at found
    have once := ledger.once serial sent' found
    unfold World.queued World.issued World.degraded at *
    rw [asked, marks, List.countP_append, List.countP_append, List.countP_singleton,
      List.countP_singleton]
    by_cases same : ask.serial = serial
    · subst same
      rw [sent] at found
      cases found
      rw [head, List.countP_cons_of_pos (by simp)] at once
      rw [if_pos rfl]
      simpa [Mark.issues, Mark.degrades, Nat.add_assoc, Nat.add_comm, Nat.add_left_comm] using once
    · have silent : ¬ (Mark.issued ask.serial inst : Mark κ α).issues serial = true := by
        simpa [Mark.issues] using same
      split
      · next own =>
          rw [own, head, List.countP_cons_of_neg (by simpa using same)] at once
          simpa [silent, Mark.degrades] using once
      · simpa [silent, Mark.degrades] using once
  · intro serial
    have aloft := ledger.aloft serial
    unfold World.issued World.flying World.answered at *
    rw [marks, flights, List.countP_append, List.countP_append, List.countP_append,
      List.countP_singleton, List.countP_singleton, List.countP_singleton, aloft]
    by_cases same : ask.serial = serial
    · simp [Mark.issues, Mark.answers, same]
      omega
    · simp [Mark.issues, Mark.answers, same]

/-- Each request of a list is degraded once, and nothing else happens to it. -/
theorem degrades_counts (asks : List (Ask κ α)) (reason : String) (serial : Nat) :
    let told : List (Mark κ α) := asks.map fun ask =>
      .reply ask.key ask.token (degradeRequest ask.req reason) ask.serial none
    told.countP (·.issues serial) = 0 ∧ told.countP (·.answers serial) = 0 ∧
      told.countP (·.degrades serial) = asks.countP (·.serial == serial) := by
  refine ⟨?_, ?_, ?_⟩
  · apply List.countP_eq_zero.2
    intro mark there
    rcases List.mem_map.1 there with ⟨ask, -, rfl⟩
    exact Bool.false_ne_true
  · apply List.countP_eq_zero.2
    intro mark there
    rcases List.mem_map.1 there with ⟨ask, -, rfl⟩
    exact Bool.false_ne_true
  · rw [List.countP_map]
    rfl

/-- A channel is drained. -/
theorem Ledger.drain (ledger : Ledger world)
    (asked : ∀ other, next.asked other = if other = id then [] else world.asked other)
    (sends : next.sends = world.sends) (flights : next.flights = world.flights)
    (marks : next.marks = world.marks ++ ((world.asked id).map (fun ask =>
      .reply ask.key ask.token (degradeRequest ask.req reason) ask.serial none) ++ said))
    (quiet : ∀ mark ∈ said, mark.Quiet) : Ledger next := by
  have older : ∀ {mark : Mark κ α}, mark ∈ world.marks → mark ∈ next.marks := by
    intro mark there
    rw [marks]
    exact List.mem_append.2 (Or.inl there)
  have newer : ∀ {mark : Mark κ α}, ¬ mark.Quiet → mark ∈ next.marks → mark ∈ world.marks ∨
      ∃ ask ∈ world.asked id,
        .reply ask.key ask.token (degradeRequest ask.req reason) ask.serial none = mark := by
    intro mark loud there
    rw [marks] at there
    rcases List.mem_append.1 there with old | new
    · exact Or.inl old
    · rcases List.mem_append.1 new with drained | extra
      · exact Or.inr (List.mem_map.1 drained)
      · exact absurd (quiet mark extra) loud
  have issued : ∀ serial, next.issued serial = world.issued serial := by
    intro serial
    unfold World.issued
    rw [marks, List.countP_append, List.countP_append, (degrades_counts _ reason serial).1,
      (quiet_counts quiet serial).1]
    rfl
  have answered : ∀ serial, next.answered serial = world.answered serial := by
    intro serial
    unfold World.answered
    rw [marks, List.countP_append, List.countP_append, (degrades_counts _ reason serial).2.1,
      (quiet_counts quiet serial).2.2]
    rfl
  have degraded : ∀ serial, next.degraded serial = world.degraded serial + world.queued id serial := by
    intro serial
    unfold World.degraded World.queued
    rw [marks, List.countP_append, List.countP_append, (degrades_counts _ reason serial).2.2,
      (quiet_counts quiet serial).2.1, Nat.add_zero]
  constructor
  · intro other ask member
    rw [sends]
    rw [asked] at member
    split at member
    · cases member
    · exact ledger.owned other ask member
  · intro flight member
    rw [flights] at member
    rcases ledger.flown flight member with ⟨known, before⟩
    rw [sends]
    exact ⟨known, older before⟩
  · intro serial inst member
    rw [sends]
    rcases newer issued_loud member with old | ⟨ask, -, same⟩
    · exact ledger.issued serial inst old
    · cases same
  · intro key token reply serial inst member
    rw [sends]
    rcases newer reply_loud member with old | ⟨ask, there, same⟩
    · rcases ledger.replied key token reply serial inst old with ⟨task, req, sent, how⟩
      refine ⟨task, req, sent, ?_⟩
      cases inst with
      | none => exact how
      | some inst => exact older how
    · cases same
      exact ⟨id, ask.req, ledger.owned id ask there, reason, rfl⟩
  · intro serial sent found
    rw [sends] at found
    have once := ledger.once serial sent found
    rw [issued, degraded]
    by_cases own : sent.task = id
    · have none : next.queued sent.task serial = 0 := by
        unfold World.queued
        rw [asked, if_pos own]
        rfl
      rw [own] at once none
      rw [own, none]
      omega
    · have same : next.queued sent.task serial = world.queued sent.task serial := by
        unfold World.queued
        rw [asked, if_neg own]
      have elsewhere : world.queued id serial = 0 := by
        apply List.countP_eq_zero.2
        intro ask there asks
        have sent' := ledger.owned id ask there
        have serials : ask.serial = serial := by simpa using asks
        rw [serials, found] at sent'
        cases sent'
        exact own rfl
      rw [same, elsewhere]
      exact once
  · intro serial
    rw [issued, answered, ledger.aloft serial]
    unfold World.flying
    rw [flights]

/-- A request is in flight at most once. -/
theorem Ledger.flying_le (ledger : Ledger world) (serial : Nat) : world.flying serial ≤ 1 := by
  have aloft := ledger.aloft serial
  by_cases known : serial < world.sends.length
  · have once := ledger.once serial _ (List.getElem?_eq_getElem known)
    omega
  · have none : world.flying serial = 0 := by
      apply List.countP_eq_zero.2
      intro flight there flies
      have same : flight.serial = serial := by simpa using flies
      have issued := ledger.issued _ _ (ledger.flown flight there).2
      omega
    omega

/-- A detached task settles its request. -/
theorem Ledger.settle {flight : Flight κ α} (ledger : Ledger world)
    (there : flight ∈ world.flights) (asked : ∀ id, next.asked id = world.asked id)
    (sends : next.sends = world.sends)
    (flights : next.flights = world.flights.filter (·.serial != flight.serial))
    (marks : next.marks = world.marks ++
      [.reply flight.key flight.token reply flight.serial (some flight.inst)]) : Ledger next := by
  have older : ∀ {mark : Mark κ α}, mark ∈ world.marks → mark ∈ next.marks := by
    intro mark member
    rw [marks]
    exact List.mem_append.2 (Or.inl member)
  have kept : ∀ {flight' : Flight κ α}, flight' ∈ next.flights → flight' ∈ world.flights := by
    intro flight' member
    rw [flights] at member
    exact (List.mem_filter.1 member).1
  have issued : ∀ serial, next.issued serial = world.issued serial := by
    intro serial
    unfold World.issued
    rw [marks, List.countP_append]
    rfl
  have degraded : ∀ serial, next.degraded serial = world.degraded serial := by
    intro serial
    unfold World.degraded
    rw [marks, List.countP_append]
    rfl
  constructor
  · intro id ask member
    rw [sends]
    rw [asked] at member
    exact ledger.owned id ask member
  · intro flight' member
    rcases ledger.flown flight' (kept member) with ⟨known, before⟩
    rw [sends]
    exact ⟨known, older before⟩
  · intro serial inst member
    rw [marks] at member
    rw [sends]
    rcases List.mem_append.1 member with old | new
    · exact ledger.issued serial inst old
    · cases List.mem_singleton.1 new
  · intro key token reply' serial inst member
    rw [marks] at member
    rw [sends]
    rcases List.mem_append.1 member with old | new
    · rcases ledger.replied key token reply' serial inst old with ⟨task, req, sent, how⟩
      refine ⟨task, req, sent, ?_⟩
      cases inst with
      | none => exact how
      | some inst => exact older how
    · cases List.mem_singleton.1 new
      rcases ledger.flown flight there with ⟨⟨task, sent⟩, before⟩
      exact ⟨task, flight.req, sent, older before⟩
  · intro serial sent found
    rw [sends] at found
    have once := ledger.once serial sent found
    unfold World.queued at *
    rw [asked, issued, degraded]
    exact once
  · intro serial
    have aloft := ledger.aloft serial
    have single := ledger.flying_le serial
    rw [issued]
    unfold World.flying World.answered at *
    rw [flights, marks, List.countP_append, List.countP_filter, List.countP_singleton]
    by_cases own : flight.serial = serial
    · have flies : 0 < world.flights.countP (·.serial == serial) :=
        List.countP_pos_iff.2 ⟨flight, there, by simpa using own⟩
      have none : world.flights.countP
          (fun other => other.serial == serial && other.serial != flight.serial) = 0 := by
        apply List.countP_eq_zero.2
        intro other _ both
        rw [own] at both
        simp at both
      have answers : (Mark.reply flight.key flight.token reply flight.serial
          (some flight.inst)).answers serial = true := by
        simpa [Mark.answers] using own
      rw [none, if_pos answers]
      omega
    · have same : world.flights.countP
          (fun other => other.serial == serial && other.serial != flight.serial) =
          world.flights.countP (·.serial == serial) := by
        apply List.countP_congr
        intro other _
        by_cases is : other.serial = serial
        · have differs : ¬ serial = flight.serial := fun same => own same.symm
          simp [is, differs]
        · simp [is]
      rw [same, aloft]
      simp [Mark.answers, own]

/-! ### Tasks and instances -/

/-- The instance a task's lifetime runs. -/
def Stage.inst : Stage → Option Nat
  | .initializing inst | .serving inst | .stopping inst => some inst
  | _ => none

/-- A dropped receiver leaves nothing queued, and a running instance has its task. -/
structure Alive (world : World κ α) : Prop where
  gone : ∀ id task, world.tasks id = some task → task.stage = .gone → task.queue = []
  running : ∀ inst, inst < world.instances → inst ∉ world.ended →
    ∃ id task, world.tasks id = some task ∧ task.stage.inst = some inst
  bounded : ∀ id task inst, world.tasks id = some task → task.stage.inst = some inst →
    inst < world.instances
  flown : ∀ flight ∈ world.flights, flight.inst < world.instances
  registered : ∀ key id, world.servers key = some id →
    ∃ task, world.tasks id = some task ∧ task.key = key
  fresh : ∀ id, world.nextTask ≤ id → world.tasks id = none

structure Kept (world : World κ α) : Prop where
  ledger : Ledger world
  alive : Alive world

/-- The tasks of `next` are those of `world`, but for one. -/
def Retasked (world next : World κ α) (id : Nat) (task : Task κ α) : Prop :=
  ∀ other, next.tasks other = if other = id then some task else world.tasks other

theorem setTask_retasked (world : World κ α) (id : Nat) (task : Task κ α) :
    Retasked world (world.setTask id task) id task := fun _ => rfl

theorem Retasked.asked (moved : Retasked world next id task) (other : Nat) :
    next.asked other = if other = id then asksOf task.key task.queue else world.asked other := by
  unfold World.asked
  rw [moved other]
  by_cases own : other = id
  · rw [if_pos own, if_pos own]
  · rw [if_neg own, if_neg own]

theorem asked_eq (found : world.tasks id = some task) :
    world.asked id = asksOf task.key task.queue := by
  unfold World.asked
  rw [found]

/-- What a task's move may do to the instances. -/
structure Instances (world next : World κ α) (task task' : Task κ α) : Prop where
  kept : ∀ inst, task.stage.inst = some inst → task'.stage.inst = some inst ∨ inst ∈ next.ended
  bounded : ∀ inst, task'.stage.inst = some inst → inst < next.instances
  born : ∀ inst, inst < next.instances → inst < world.instances ∨ task'.stage.inst = some inst
  ended : ∀ inst ∈ world.ended, inst ∈ next.ended
  grown : world.instances ≤ next.instances

theorem Alive.move (alive : Alive world) (found : world.tasks id = some task)
    (moved : Retasked world next id task') (key : task'.key = task.key)
    (gone : task'.stage = .gone → task'.queue = []) (instances : Instances world next task task')
    (flights : ∀ flight ∈ next.flights, flight.inst < next.instances)
    (servers : next.servers = world.servers) (nextTask : next.nextTask = world.nextTask) :
    Alive next := by
  constructor
  · intro other task'' found'' finished
    rw [moved] at found''
    split at found''
    · cases found''
      exact gone finished
    · exact alive.gone other task'' found'' finished
  · intro inst bound runs
    rcases instances.born inst bound with old | new
    · have ran : inst ∉ world.ended := fun ended => runs (instances.ended inst ended)
      rcases alive.running inst old ran with ⟨other, task'', found'', its⟩
      by_cases own : other = id
      · rw [own, found] at found''
        cases found''
        rcases instances.kept inst its with still | ended
        · exact ⟨id, task', by rw [moved, if_pos rfl], still⟩
        · exact absurd ended runs
      · exact ⟨other, task'', by rw [moved, if_neg own]; exact found'', its⟩
    · exact ⟨id, task', by rw [moved, if_pos rfl], new⟩
  · intro other task'' inst found'' its
    rw [moved] at found''
    split at found''
    · cases found''
      exact instances.bounded inst its
    · exact Nat.lt_of_lt_of_le (alive.bounded other task'' inst found'' its) instances.grown
  · exact flights
  · intro key' other there
    rw [servers] at there
    rcases alive.registered key' other there with ⟨task'', found'', named⟩
    rw [moved]
    by_cases own : other = id
    · rw [own, found] at found''
      cases found''
      exact ⟨task', by rw [if_pos own], key.trans named⟩
    · exact ⟨task'', by rw [if_neg own]; exact found'', named⟩
  · intro other past
    rw [nextTask] at past
    rw [moved]
    by_cases own : other = id
    · rw [own] at past
      rw [alive.fresh id past] at found
      cases found
    · rw [if_neg own]
      exact alive.fresh other past

/-- Nothing happens to the instances. -/
theorem Instances.same (alive : Alive world) (found : world.tasks id = some task)
    (stage : task'.stage.inst = task.stage.inst) (ended : next.ended = world.ended)
    (instances : next.instances = world.instances) : Instances world next task task' := by
  constructor
  · intro inst its
    exact Or.inl (stage.trans its)
  · intro inst its
    rw [instances]
    exact alive.bounded id task inst found (stage ▸ its)
  · intro inst bound
    rw [instances] at bound
    exact Or.inl bound
  · intro inst finished
    rw [ended]
    exact finished
  · exact instances.ge

/-- The task leaves its instance, whose main loop is over. -/
theorem Instances.left {inst : Nat} (its : task.stage.inst = some inst)
    (none : task'.stage.inst = none) (ended : ∀ other, other ∈ world.ended → other ∈ next.ended)
    (finished : inst ∈ next.ended) (instances : next.instances = world.instances) :
    Instances world next task task' := by
  constructor
  · intro other same
    rw [its] at same
    cases same
    exact Or.inr finished
  · intro other same
    rw [none] at same
    cases same
  · intro other bound
    rw [instances] at bound
    exact Or.inl bound
  · exact ended
  · exact instances.ge

/-- A task moves on, its channel's requests as they were. -/
theorem Kept.retask (kept : Kept world) (found : world.tasks id = some task)
    (moved : Retasked world next id task') (key : task'.key = task.key)
    (asks : asksOf task'.key task'.queue = asksOf task.key task.queue)
    (gone : task'.stage ≠ .gone) (instances : Instances world next task task')
    (servers : next.servers = world.servers) (nextTask : next.nextTask = world.nextTask)
    (sends : next.sends = world.sends) (flights : next.flights = world.flights)
    (marks : next.marks = world.marks ++ said) (quiet : ∀ mark ∈ said, mark.Quiet) :
    Kept next := by
  constructor
  · apply kept.ledger.still _ sends (by rw [flights]) marks quiet
    intro other
    rw [moved.asked]
    split
    · next own =>
        rw [own, asked_eq found]
        exact asks
    · rfl
  · apply kept.alive.move found moved key (fun finished => absurd finished gone) instances _ servers
      nextTask
    intro flight member
    rw [flights] at member
    exact Nat.lt_of_lt_of_le (kept.alive.flown flight member) instances.grown

/-- Only the stage moves on, and perhaps something quiet is said. -/
theorem Kept.restage {stage : Stage} (kept : Kept world) (found : world.tasks id = some task)
    (moved : Retasked world next id { task with stage := stage }) (live : stage ≠ .gone)
    (instances : Instances world next task { task with stage := stage })
    (servers : next.servers = world.servers) (nextTask : next.nextTask = world.nextTask)
    (sends : next.sends = world.sends) (flights : next.flights = world.flights)
    (marks : next.marks = world.marks ++ said) (quiet : ∀ mark ∈ said, mark.Quiet) : Kept next :=
  kept.retask found moved rfl rfl live instances servers nextTask sends flights marks quiet

/-- No task moves. -/
theorem Alive.keep (alive : Alive world) (tasks : next.tasks = world.tasks)
    (instances : next.instances = world.instances)
    (ended : ∀ inst ∈ world.ended, inst ∈ next.ended)
    (flights : ∀ flight ∈ next.flights, flight.inst < world.instances)
    (servers : ∀ key id, next.servers key = some id → world.servers key = some id)
    (nextTask : next.nextTask = world.nextTask) : Alive next := by
  constructor
  · rw [tasks]
    exact alive.gone
  · rw [tasks, instances]
    intro inst bound runs
    exact alive.running inst bound (fun finished => runs (ended inst finished))
  · rw [tasks, instances]
    exact alive.bounded
  · rw [instances]
    exact flights
  · rw [tasks]
    intro key id there
    exact alive.registered key id (servers key id there)
  · rw [tasks, nextTask]
    exact alive.fresh

theorem asked_congr (tasks : next.tasks = world.tasks) (id : Nat) :
    next.asked id = world.asked id := by
  unfold World.asked
  rw [tasks]

/-- A response changes no flight but for its outcome. -/
theorem resolved_stub (flight : Flight κ α) (inst serial : Nat) (reply : LspReply α) :
    (if flight.awaits inst serial then flight.resolve reply else flight).stub = flight.stub := by
  split <;> rfl

theorem start_kept : Kept (World.start : World κ α) := by
  constructor
  · constructor
    · intro id ask member
      cases member
    · intro flight member
      cases member
    · intro serial inst member
      cases member
    · intro key token reply serial inst member
      cases member
    · intro serial sent found
      cases found
    · intro serial
      rfl
  · constructor
    · intro id task found
      cases found
    · intro inst bound
      cases bound
    · intro id task inst found
      cases found
    · intro flight member
      cases member
    · intro key id there
      cases there
    · intro id _
      rfl

/-! ### Failures -/

theorem afterFailure_key (task : Task κ α) (held : Bool) (now : Nat) :
    (task.afterFailure held now).1.key = task.key := by
  unfold Task.afterFailure
  split
  · rfl
  · simp only
    split <;> rfl

theorem afterFailure_queue (task : Task κ α) (held : Bool) (now : Nat) :
    (task.afterFailure held now).1.queue = [] := by
  unfold Task.afterFailure
  split
  · rfl
  · simp only
    split <;> rfl

theorem afterFailure_inst (task : Task κ α) (held : Bool) (now : Nat) :
    (task.afterFailure held now).1.stage.inst = none := by
  unfold Task.afterFailure
  split
  · rfl
  · simp only
    split <;> rfl

theorem afterFailure_quiet (task : Task κ α) (held : Bool) (now : Nat) :
    ∀ mark ∈ (task.afterFailure held now).2, mark.Quiet := by
  unfold Task.afterFailure
  intro mark member
  split at member
  · cases member
  · simp only at member
    split at member
    · rw [List.mem_singleton.1 member]
      exact trivial
    · cases member

/-- A task's channel is drained as its lifetime ends. -/
theorem Kept.drain (kept : Kept world) (found : world.tasks id = some task)
    (moved : Retasked world next id task') (key : task'.key = task.key) (empty : task'.queue = [])
    (out : task'.stage.inst = none) (left : task.stage.inst = none)
    (instances : next.instances = world.instances) (ended : next.ended = world.ended)
    (servers : next.servers = world.servers) (nextTask : next.nextTask = world.nextTask)
    (sends : next.sends = world.sends) (flights : next.flights = world.flights)
    (marks : next.marks = world.marks ++ (drainQueued task.key reason task.queue ++ said))
    (quiet : ∀ mark ∈ said, mark.Quiet) : Kept next := by
  have asked : ∀ other, next.asked other = if other = id then [] else world.asked other := by
    intro other
    rw [moved.asked, empty, asksOf_nil]
  rw [drainQueued_eq, ← asked_eq found] at marks
  constructor
  · exact kept.ledger.drain asked sends flights marks quiet
  · apply kept.alive.move found moved key (fun _ => empty)
      (.same kept.alive found (out.trans left.symm) ended instances) _ servers nextTask
    intro flight member
    rw [flights] at member
    rw [instances]
    exact kept.alive.flown flight member

theorem failed_kept {now : Nat} {message : String} {code signal : Option Int} (kept : Kept world)
    (found : world.tasks id = some task) (left : task.stage.inst = none) :
    Kept (world.failed id task reason message code signal now) := by
  have quiet : ∀ mark ∈ Mark.exited task.key message code signal ::
      (task.afterFailure (world.holds id task) now).2, mark.Quiet := by
    intro mark member
    rcases List.mem_cons.1 member with rfl | later
    · exact trivial
    · exact afterFailure_quiet task _ now mark later
  exact kept.drain found (fun _ => rfl) (afterFailure_key ..) (afterFailure_queue ..)
    (afterFailure_inst ..) left rfl rfl rfl rfl rfl rfl rfl quiet

/-! ### The supervisor -/

theorem deliver_kept (kept : Kept world) (plain : asksOf key [msg] = []) :
    Kept (world.deliver key msg) := by
  unfold World.deliver
  split
  · next id registered =>
      split
      · next task found =>
          split
          · exact kept
          · next live =>
              rcases kept.alive.registered key id registered with ⟨task', found', named⟩
              rw [found] at found'
              cases found'
              have asks : asksOf task.key (task.queue ++ [msg]) = asksOf task.key task.queue := by
                rw [asksOf_append, named, plain, List.append_nil]
              exact kept.retask found (fun _ => rfl) rfl asks live
                (.same kept.alive found rfl rfl rfl) rfl rfl rfl rfl (List.append_nil _).symm
                nothing_quiet
      · exact kept
  · exact kept

theorem deliverRequest_kept (kept : Kept world) : Kept (world.deliverRequest key token req) := by
  unfold World.deliverRequest
  split
  · next id registered =>
      split
      · next task found =>
          split
          · exact kept
          · next live =>
              rcases kept.alive.registered key id registered with ⟨task', found', named⟩
              rw [found] at found'
              cases found'
              constructor
              · refine kept.ledger.send ?_ rfl rfl rfl
                intro other
                rw [(setTask_retasked _ id _).asked]
                by_cases own : other = id
                · rw [if_pos own, if_pos own, asked_eq found, ← named]
                  exact asksOf_append ..
                · rw [if_neg own, if_neg own]
                  rfl
              · exact kept.alive.move found (fun _ => rfl) rfl
                  (fun finished => absurd finished live)
                  (.same kept.alive found rfl rfl rfl) kept.alive.flown rfl rfl
      · exact kept
  · exact kept

theorem serve_kept {inst : Nat} {rest : List (ServerMsg α)} (kept : Kept world)
    (found : world.tasks id = some task) (serving : task.stage = .serving inst)
    (queued : task.queue = msg :: rest) : Kept (world.serve id task inst msg rest) := by
  have live : task.stage ≠ .gone := by
    rw [serving]
    simp
  cases msg with
  | request serial token req =>
      have head : world.asked id = ⟨serial, task.key, token, req⟩ :: asksOf task.key rest := by
        rw [asked_eq found, queued]
        rfl
      constructor
      · refine kept.ledger.hand head ?_ rfl rfl rfl
        intro other
        exact (setTask_retasked _ id _).asked other
      · refine kept.alive.move found (fun _ => rfl) rfl (fun finished => absurd finished live)
          (.same kept.alive found rfl rfl rfl) ?_ rfl rfl
        intro flight member
        rcases List.mem_append.1 member with old | new
        · exact kept.alive.flown flight old
        · rw [List.mem_singleton.1 new]
          exact kept.alive.bounded id task inst found (congrArg Stage.inst serving)
  | shutdown =>
      refine kept.retask found (fun _ => rfl) rfl ?_ (by simp) ?_ rfl rfl rfl rfl
        (List.append_nil _).symm nothing_quiet
      · rw [queued]
        rfl
      · exact .same kept.alive found (congrArg Stage.inst serving).symm rfl rfl
  | notify note =>
      refine kept.retask found (fun _ => rfl) rfl ?_ live (.same kept.alive found rfl rfl rfl)
        rfl rfl rfl rfl (List.append_nil _).symm nothing_quiet
      rw [queued]
      rfl
  | applyEditResponse token outcome =>
      refine kept.retask found (fun _ => rfl) rfl ?_ live (.same kept.alive found rfl rfl rfl)
        rfl rfl rfl rfl (List.append_nil _).symm nothing_quiet
      rw [queued]
      rfl

section

variable [DecidableEq κ]

theorem dropSender_kept {key : κ} (kept : Kept world) : Kept (world.dropSender key) := by
  constructor
  · exact kept.ledger.still (fun _ => rfl) rfl rfl (List.append_nil _).symm nothing_quiet
  · constructor
    · exact kept.alive.gone
    · exact kept.alive.running
    · exact kept.alive.bounded
    · exact kept.alive.flown
    · intro key' id there
      simp only [World.dropSender] at there
      split at there
      · cases there
      · exact kept.alive.registered key' id there
    · exact kept.alive.fresh

theorem startServer_kept {key : κ} {program : String} (kept : Kept world) :
    Kept (world.startServer key program) := by
  have unborn : world.tasks world.nextTask = none := kept.alive.fresh _ (Nat.le_refl _)
  have older : ∀ {id : Nat} {task : Task κ α}, world.tasks id = some task →
      (world.startServer key program).tasks id = some task := by
    intro id task found
    have other : id ≠ world.nextTask := by
      intro same
      rw [same, unborn] at found
      cases found
    exact (if_neg other).trans found
  have cases_task : ∀ {id : Nat} {task : Task κ α},
      (world.startServer key program).tasks id = some task →
      task = ⟨key, program, .spawning, [], []⟩ ∨ world.tasks id = some task := by
    intro id task found
    by_cases own : id = world.nextTask
    · exact Or.inl (Option.some.inj ((if_pos own).symm.trans found)).symm
    · exact Or.inr ((if_neg own).symm.trans found)
  constructor
  · refine kept.ledger.still ?_ rfl rfl (List.append_nil _).symm nothing_quiet
    intro id
    unfold World.startServer
    rw [(setTask_retasked _ world.nextTask _).asked]
    by_cases own : id = world.nextTask
    · rw [if_pos own]
      unfold World.asked
      rw [own, unborn]
      rfl
    · rw [if_neg own]
      rfl
  · constructor
    · intro id task found finished
      rcases cases_task found with rfl | old
      · rfl
      · exact kept.alive.gone id task old finished
    · intro inst bound runs
      rcases kept.alive.running inst bound runs with ⟨id, task, found, its⟩
      exact ⟨id, task, older found, its⟩
    · intro id task inst found its
      rcases cases_task found with rfl | old
      · cases its
      · exact kept.alive.bounded id task inst old its
    · exact kept.alive.flown
    · intro key' id there
      by_cases own : key' = key
      · have same : world.nextTask = id := Option.some.inj ((if_pos own).symm.trans there)
        exact ⟨⟨key, program, .spawning, [], []⟩, if_pos same.symm, own.symm⟩
      · rcases kept.alive.registered key' id ((if_neg own).symm.trans there) with
          ⟨task, found, named⟩
        exact ⟨task, older found, named⟩
    · intro id past
      have later : world.nextTask + 1 ≤ id := past
      have other : id ≠ world.nextTask := by omega
      exact (if_neg other).trans (kept.alive.fresh id (by omega))

theorem supervise_kept (command : LspCommand κ α) (kept : Kept world) :
    Kept (world.supervise command) := by
  cases command with
  | ensure key program =>
      simp only [World.supervise]
      split
      · exact kept
      · exact startServer_kept kept
  | notify key note => exact deliver_kept kept rfl
  | request key token req => exact deliverRequest_kept kept
  | applyEditResponse key id outcome => exact deliver_kept kept rfl
  | shutdown key => exact dropSender_kept (deliver_kept kept rfl)

/-! ### One lifetime -/

variable {id : Nat} {error : String}

theorem spawned_kept (kept : Kept world) (stepped : step world (.spawned id) = some next) :
    Kept next := by
  simp only [step] at stepped
  split at stepped
  · next task found =>
      split at stepped
      · next spawning =>
          cases stepped
          refine kept.restage found (fun _ => rfl) (by simp) ?_ rfl rfl rfl rfl
            (List.append_nil _).symm nothing_quiet
          constructor
          · intro inst its
            rw [spawning] at its
            cases its
          · rintro inst ⟨⟩
            exact Nat.lt_succ_self _
          · intro inst bound
            rcases Nat.lt_succ_iff_lt_or_eq.1 bound with old | rfl
            · exact Or.inl old
            · exact Or.inr rfl
          · intro inst finished
            exact finished
          · exact Nat.le_succ _
      · cases stepped
  · cases stepped

omit [DecidableEq κ] in
/-- A task whose instance ends waits for its process to be reaped. -/
theorem Kept.reap {inst : Nat} {why} (kept : Kept world) (found : world.tasks id = some task)
    (its : task.stage.inst = some inst) :
    Kept ({ world with ended := inst :: world.ended }.setTask id
      { task with stage := .reaping why }) := by
  refine kept.restage found (fun _ => rfl) (by simp) ?_ rfl rfl rfl rfl (List.append_nil _).symm
    nothing_quiet
  exact .left its rfl (fun _ => List.mem_cons_of_mem _) (List.mem_cons_self ..) rfl

omit [DecidableEq κ] in
theorem Kept.reap_ended {inst : Nat} {why} (kept : Kept world)
    (found : world.tasks id = some task) (its : task.stage.inst = some inst)
    (ended : inst ∈ world.ended) :
    Kept (world.setTask id { task with stage := .reaping why }) := by
  refine kept.restage found (fun _ => rfl) (by simp) ?_ rfl rfl rfl rfl (List.append_nil _).symm
    nothing_quiet
  exact .left its rfl (fun _ same => same) ended rfl

theorem initTimeout_kept (kept : Kept world) (stepped : step world (.initTimeout id) = some next) :
    Kept next := by
  simp only [step] at stepped
  split at stepped
  · next task found =>
      split at stepped
      · next inst its =>
          cases stepped
          exact kept.reap found (congrArg Stage.inst its)
      · cases stepped
  · cases stepped

theorem initLoopEnd_kept (kept : Kept world) (stepped : step world (.initLoopEnd id) = some next) :
    Kept next := by
  simp only [step] at stepped
  split at stepped
  · next task found =>
      split at stepped
      · next inst its =>
          split at stepped
          · next ended =>
              cases stepped
              exact kept.reap_ended found (congrArg Stage.inst its) ended
          · cases stepped
      · cases stepped
  · cases stepped

theorem initFails_kept (kept : Kept world)
    (stepped : step world (.initFails id error) = some next) : Kept next := by
  simp only [step] at stepped
  split at stepped
  · next task found =>
      split at stepped
      · next inst its =>
          cases stepped
          exact kept.reap found (congrArg Stage.inst its)
      · cases stepped
  · cases stepped

theorem initOk_kept {init : α} (kept : Kept world)
    (stepped : step world (.initOk id init) = some next) : Kept next := by
  simp only [step] at stepped
  split at stepped
  · next task found =>
      split at stepped
      · next inst its =>
          cases stepped
          refine kept.restage found (fun _ => rfl) (by simp)
            (.same kept.alive found (congrArg Stage.inst its).symm rfl rfl) rfl rfl rfl rfl rfl ?_
          intro mark member
          rw [List.mem_singleton.1 member]
          exact trivial
      · cases stepped
  · cases stepped

theorem take_kept (kept : Kept world) (stepped : step world (.take id) = some next) :
    Kept next := by
  simp only [step] at stepped
  split at stepped
  · next task found =>
      split at stepped
      · next inst serving =>
          split at stepped
          · next msg rest queued =>
              cases stepped
              exact serve_kept kept found serving queued
          · split at stepped
            · cases stepped
            · cases stepped
              exact kept.restage found (fun _ => rfl) (by simp)
                (.same kept.alive found (congrArg Stage.inst serving).symm rfl rfl) rfl rfl rfl rfl
                (List.append_nil _).symm nothing_quiet
      · cases stepped
  · cases stepped

theorem noticeEnd_kept {result : LoopResult} (kept : Kept world)
    (stepped : step world (.noticeEnd id result) = some next) : Kept next := by
  simp only [step] at stepped
  split at stepped
  · next task found =>
      split at stepped
      · next inst its =>
          split at stepped
          · next ended =>
              cases stepped
              exact kept.reap_ended found (congrArg Stage.inst its) ended
          · cases stepped
      · cases stepped
  · cases stepped

theorem stopped_kept (kept : Kept world) (stepped : step world (.stopped id) = some next) :
    Kept next := by
  simp only [step] at stepped
  split at stepped
  · next task found =>
      split at stepped
      · next inst its =>
          cases stepped
          exact kept.reap found (congrArg Stage.inst its)
      · cases stepped
  · cases stepped

theorem reaped_kept {now : Nat} {code signal : Option Int} (kept : Kept world)
    (stepped : step world (.reaped id code signal now) = some next) : Kept next := by
  simp only [step] at stepped
  split at stepped
  · next task found =>
      split at stepped
      · next reaping =>
          cases stepped
          have marks : world.marks ++
              drainQueued task.key "language server shut down" task.queue =
              world.marks ++ (drainQueued task.key "language server shut down" task.queue ++ []) :=
            by rw [List.append_nil]
          exact kept.drain found (fun _ => rfl) rfl rfl rfl (congrArg Stage.inst reaping) rfl rfl
            rfl rfl rfl rfl marks nothing_quiet
      · next reason message status reaping =>
          cases stepped
          exact failed_kept kept found (congrArg Stage.inst reaping)
      · cases stepped
  · cases stepped

theorem spawnFails_kept {now : Nat} (kept : Kept world)
    (stepped : step world (.spawnFails id error now) = some next) : Kept next := by
  simp only [step] at stepped
  split at stepped
  · next task found =>
      split at stepped
      · next spawning =>
          cases stepped
          exact failed_kept kept found (congrArg Stage.inst spawning)
      · cases stepped
  · cases stepped

theorem wake_kept (kept : Kept world) (stepped : step world (.wake id) = some next) :
    Kept next := by
  simp only [step] at stepped
  split at stepped
  · next task found =>
      split at stepped
      · next backoff sleeping =>
          cases stepped
          exact kept.restage found (fun _ => rfl) (by simp)
            (.same kept.alive found (congrArg Stage.inst sleeping).symm rfl rfl) rfl rfl rfl rfl
            (List.append_nil _).symm nothing_quiet
      · cases stepped
  · cases stepped

/-! ### Instances and detached tasks -/

theorem hangUp_kept (kept : Kept world)
    (stepped : step world .hangUp = some next) : Kept next := by
  cases stepped
  constructor
  · exact kept.ledger.still (asked_congr rfl) rfl rfl (List.append_nil _).symm nothing_quiet
  · refine kept.alive.keep rfl rfl (fun _ same => same) kept.alive.flown ?_ rfl
    intro key id there
    cases there

theorem loopEnd_kept {inst : Nat} (kept : Kept world)
    (stepped : step world (.loopEnd inst) = some next) : Kept next := by
  simp only [step] at stepped
  split at stepped
  · cases stepped
    constructor
    · exact kept.ledger.still (asked_congr rfl) rfl rfl (List.append_nil _).symm nothing_quiet
    · exact kept.alive.keep rfl rfl (fun _ => List.mem_cons_of_mem _) kept.alive.flown
        (fun _ _ same => same) rfl
  · cases stepped

theorem respond_kept {inst serial : Nat} {reply : LspReply α} (kept : Kept world)
    (stepped : step world (.respond inst serial reply) = some next) : Kept next := by
  simp only [step] at stepped
  split at stepped
  · cases stepped
    constructor
    · refine kept.ledger.still (asked_congr rfl) rfl ?_ (List.append_nil _).symm nothing_quiet
      rw [List.map_map]
      apply List.map_congr_left
      intro flight _
      exact resolved_stub flight inst serial reply
    · refine kept.alive.keep rfl rfl (fun _ same => same) ?_ (fun _ _ same => same) rfl
      intro flight member
      rcases List.mem_map.1 member with ⟨flight', there, rfl⟩
      have same := congrArg Prod.snd (resolved_stub flight' inst serial reply)
      exact same.trans_lt (kept.alive.flown flight' there)
  · cases stepped

theorem settle_kept {serial : Nat} (kept : Kept world)
    (stepped : step world (.settle serial error) = some next) : Kept next := by
  simp only [step] at stepped
  split at stepped
  · next flight found =>
      split at stepped
      · next reply ready =>
          cases stepped
          have there : flight ∈ world.flights := List.mem_of_find?_eq_some found
          have own : serial = flight.serial := by
            have holds := List.find?_some found
            exact (beq_iff_eq.1 holds).symm
          subst own
          constructor
          · exact kept.ledger.settle there (asked_congr rfl) rfl rfl rfl
          · refine kept.alive.keep rfl rfl (fun _ same => same) ?_ (fun _ _ same => same) rfl
            intro flight' member
            exact kept.alive.flown flight' (List.mem_filter.1 member).1
      · cases stepped
  · cases stepped

theorem step_kept {event : Event κ α} (kept : Kept world)
    (stepped : step world event = some next) : Kept next := by
  cases event with
  | command command =>
      simp only [step] at stepped
      split at stepped
      · cases stepped
      · cases stepped
        exact supervise_kept command kept
  | hangUp => exact hangUp_kept kept stepped
  | spawnFails id error now => exact spawnFails_kept kept stepped
  | spawned id => exact spawned_kept kept stepped
  | initTimeout id => exact initTimeout_kept kept stepped
  | initLoopEnd id => exact initLoopEnd_kept kept stepped
  | initFails id error => exact initFails_kept kept stepped
  | initOk id init => exact initOk_kept kept stepped
  | take id => exact take_kept kept stepped
  | noticeEnd id result => exact noticeEnd_kept kept stepped
  | stopped id => exact stopped_kept kept stepped
  | reaped id code signal now => exact reaped_kept kept stepped
  | wake id => exact wake_kept kept stepped
  | loopEnd inst => exact loopEnd_kept kept stepped
  | respond inst serial reply => exact respond_kept kept stepped
  | settle serial error => exact settle_kept kept stepped

end

/-! ### Answers -/

/-- An answer that waits or was told is a response of the instance the request was issued to; else
the instance's main loop is over and the reply is the empty one. -/
def Backed (events : List (Event κ α)) (world : World κ α) : Prop :=
  (∀ flight ∈ world.flights, ∀ reply, flight.outcome = some reply →
    .respond flight.inst flight.serial reply ∈ events) ∧
  ∀ key token reply serial inst, .reply key token reply serial (some inst) ∈ world.marks →
    .respond inst serial reply ∈ events ∨
      (inst ∈ world.ended ∧ ∃ id req error,
        world.sends[serial]? = some ⟨id, key, token, req⟩ ∧ reply = transportError req error)

/-- What a step that is no response and no landing does to the answers. -/
structure Steady (world next : World κ α) : Prop where
  flights : ∀ flight ∈ next.flights, flight.outcome ≠ none → flight ∈ world.flights
  answers : ∀ key token reply serial inst,
    .reply key token reply serial (some inst) ∈ next.marks →
    .reply key token reply serial (some inst) ∈ world.marks
  ended : ∀ inst ∈ world.ended, inst ∈ next.ended
  sends : ∀ (serial : Nat) (sent : Sent κ α), world.sends[serial]? = some sent →
    next.sends[serial]? = some sent

theorem Steady.backed {events : List (Event κ α)} {event : Event κ α} (steady : Steady world next)
    (backed : Backed events world) : Backed (events ++ [event]) next := by
  constructor
  · intro flight member reply outcome
    apply List.mem_append.2
    left
    apply backed.1 flight (steady.flights flight member _) reply outcome
    rw [outcome]
    exact Option.some_ne_none reply
  · intro key token reply serial inst member
    rcases backed.2 key token reply serial inst (steady.answers _ _ _ _ _ member) with
      answered | ⟨ended, id, req, error, sent, same⟩
    · exact Or.inl (List.mem_append.2 (Or.inl answered))
    · exact Or.inr ⟨steady.ended inst ended, id, req, error, steady.sends _ _ sent, same⟩

theorem Steady.refl (world : World κ α) : Steady world world :=
  ⟨fun _ member _ => member, fun _ _ _ _ _ member => member, fun _ member => member,
    fun _ _ found => found⟩

/-- Marks that answer nothing are added, and perhaps an instance ends. -/
theorem Steady.of_marks (flights : next.flights = world.flights)
    (marks : next.marks = world.marks ++ said)
    (silent : ∀ key token reply serial inst, .reply key token reply serial (some inst) ∉ said)
    (ended : ∀ inst ∈ world.ended, inst ∈ next.ended) (sends : next.sends = world.sends) :
    Steady world next := by
  constructor
  · intro flight member _
    rw [flights] at member
    exact member
  · intro key token reply serial inst member
    rw [marks] at member
    rcases List.mem_append.1 member with old | new
    · exact old
    · exact absurd new (silent key token reply serial inst)
  · exact ended
  · intro serial sent found
    rw [sends]
    exact found

theorem drainQueued_silent (key : κ) (reason : String) (queue : List (ServerMsg α)) (key' : κ)
    (token : ReqToken) (reply : LspReply α) (serial inst : Nat) :
    .reply key' token reply serial (some inst) ∉ drainQueued key reason queue := by
  rw [drainQueued_eq]
  intro member
  rcases List.mem_map.1 member with ⟨ask, -, same⟩
  cases same

theorem failed_steady (world : World κ α) (id : Nat) (task : Task κ α) (reason message : String)
    (code signal : Option Int) (now : Nat) :
    Steady world (world.failed id task reason message code signal now) := by
  refine .of_marks rfl rfl ?_ (fun _ same => same) rfl
  intro key token reply serial inst member
  rcases List.mem_append.1 member with drained | later
  · exact drainQueued_silent _ _ _ _ _ _ _ _ drained
  · rcases List.mem_cons.1 later with same | said
    · cases same
    · exact reply_loud (afterFailure_quiet task _ now _ said)

theorem serve_steady (world : World κ α) (id : Nat) (task : Task κ α) (inst : Nat)
    (msg : ServerMsg α) (rest : List (ServerMsg α)) :
    Steady world (world.serve id task inst msg rest) := by
  cases msg with
  | request serial token req =>
      constructor
      · intro flight member outcome
        rcases List.mem_append.1 member with old | new
        · exact old
        · rw [List.mem_singleton.1 new] at outcome
          exact absurd rfl outcome
      · intro key token' reply serial' inst' member
        rcases List.mem_append.1 member with old | new
        · exact old
        · cases List.mem_singleton.1 new
      · exact fun _ member => member
      · exact fun _ _ found => found
  | _ =>
      exact .of_marks rfl (List.append_nil _).symm (fun _ _ _ _ _ => List.not_mem_nil)
        (fun _ same => same) rfl

/-- The shape all the remaining stretches have: one quiet list of marks, more instances over. -/
theorem quiet_steady (flights : next.flights = world.flights)
    (marks : next.marks = world.marks ++ said) (quiet : ∀ mark ∈ said, mark.Quiet)
    (ended : ∀ inst ∈ world.ended, inst ∈ next.ended) (sends : next.sends = world.sends) :
    Steady world next :=
  .of_marks flights marks (fun _ _ _ _ _ member => reply_loud (quiet _ member)) ended sends

section

variable [DecidableEq κ]

theorem supervise_steady (world : World κ α) (command : LspCommand κ α) :
    Steady world (world.supervise command) := by
  have delivered : ∀ key msg, Steady world (world.deliver key msg) := by
    intro key msg
    unfold World.deliver
    split
    · split
      · split
        · exact .refl world
        · exact .of_marks rfl (List.append_nil _).symm (fun _ _ _ _ _ => List.not_mem_nil)
            (fun _ same => same) rfl
      · exact .refl world
    · exact .refl world
  cases command with
  | ensure key program =>
      simp only [World.supervise]
      split
      · exact .refl world
      · exact .of_marks rfl (List.append_nil _).symm (fun _ _ _ _ _ => List.not_mem_nil)
          (fun _ same => same) rfl
  | notify key note => exact delivered key _
  | request key token req =>
      simp only [World.supervise, World.deliverRequest]
      split
      · split
        · split
          · exact .refl world
          · constructor
            · exact fun _ member _ => member
            · exact fun _ _ _ _ _ member => member
            · exact fun _ member => member
            · intro serial sent found
              exact (List.getElem?_append_left (List.getElem?_eq_some_iff.1 found).1).trans found
        · exact .refl world
      · exact .refl world
  | applyEditResponse key id outcome => exact delivered key _
  | shutdown key =>
      have steady := delivered key .shutdown
      exact ⟨steady.flights, steady.answers, steady.ended, steady.sends⟩

variable {event : Event κ α} {flight : Flight κ α}

theorem step_steady (stepped : step world event = some next) :
    Steady world next ∨ (∃ inst serial reply, event = .respond inst serial reply) ∨
      ∃ serial error, event = .settle serial error := by
  cases event with
  | respond inst serial reply => exact Or.inr (Or.inl ⟨inst, serial, reply, rfl⟩)
  | settle serial error => exact Or.inr (Or.inr ⟨serial, error, rfl⟩)
  | command command =>
      simp only [step] at stepped
      split at stepped
      · cases stepped
      · cases stepped
        exact Or.inl (supervise_steady world command)
  | hangUp =>
      cases stepped
      exact Or.inl (quiet_steady rfl (List.append_nil _).symm nothing_quiet (fun _ same => same) rfl)
  | loopEnd inst =>
      simp only [step] at stepped
      split at stepped
      · cases stepped
        exact Or.inl (quiet_steady rfl (List.append_nil _).symm nothing_quiet
          (fun _ => List.mem_cons_of_mem _) rfl)
      · cases stepped
  | spawnFails id error now =>
      simp only [step] at stepped
      split at stepped
      · split at stepped
        · cases stepped
          exact Or.inl (failed_steady ..)
        · cases stepped
      · cases stepped
  | take id =>
      simp only [step] at stepped
      split at stepped
      · split at stepped
        · split at stepped
          · cases stepped
            exact Or.inl (serve_steady ..)
          · split at stepped
            · cases stepped
            · cases stepped
              exact Or.inl (quiet_steady rfl (List.append_nil _).symm nothing_quiet
                (fun _ same => same) rfl)
        · cases stepped
      · cases stepped
  | reaped id code signal now =>
      simp only [step] at stepped
      split at stepped
      · next task found =>
          split at stepped
          · cases stepped
            left
            exact .of_marks rfl rfl (drainQueued_silent _ _ _) (fun _ same => same) rfl
          · cases stepped
            exact Or.inl (failed_steady ..)
          · cases stepped
      · cases stepped
  | initOk id init =>
      simp only [step] at stepped
      split at stepped
      · next task found =>
          split at stepped
          · cases stepped
            refine Or.inl (quiet_steady rfl rfl ?_ (fun _ same => same) rfl)
            intro mark member
            rw [List.mem_singleton.1 member]
            exact trivial
          · cases stepped
      · cases stepped
  | spawned id | wake id =>
      simp only [step] at stepped
      split at stepped
      · split at stepped
        · cases stepped
          exact Or.inl (quiet_steady rfl (List.append_nil _).symm nothing_quiet
            (fun _ same => same) rfl)
        · cases stepped
      · cases stepped
  | initTimeout id | initFails id error | stopped id =>
      simp only [step] at stepped
      split at stepped
      · split at stepped
        · cases stepped
          exact Or.inl (quiet_steady rfl (List.append_nil _).symm nothing_quiet
            (fun _ => List.mem_cons_of_mem _) rfl)
        · cases stepped
      · cases stepped
  | initLoopEnd id | noticeEnd id result =>
      simp only [step] at stepped
      split at stepped
      · split at stepped
        · split at stepped
          · cases stepped
            exact Or.inl (quiet_steady rfl (List.append_nil _).symm nothing_quiet
              (fun _ same => same) rfl)
          · cases stepped
        · cases stepped
      · cases stepped

theorem step_backed {events : List (Event κ α)} (ledger : Ledger world)
    (backed : Backed events world) (stepped : step world event = some next) :
    Backed (events ++ [event]) next := by
  rcases step_steady stepped with steady | ⟨inst, serial, reply, rfl⟩ | ⟨serial, error, rfl⟩
  · exact steady.backed backed
  · simp only [step] at stepped
    split at stepped
    · cases stepped
      constructor
      · intro flight member told outcome
        rcases List.mem_map.1 member with ⟨flight', there, rfl⟩
        split at outcome
        · next awaited =>
            cases outcome
            have addressed : flight'.inst = inst ∧ flight'.serial = serial := by
              simp only [Flight.awaits, Bool.and_eq_true, beq_iff_eq] at awaited
              exact ⟨awaited.1.2, awaited.1.1⟩
            rw [if_pos awaited]
            apply List.mem_append.2
            right
            rw [← addressed.1, ← addressed.2]
            exact List.mem_cons_self ..
        · next other =>
            rw [if_neg other]
            exact List.mem_append.2 (Or.inl (backed.1 flight' there told outcome))
      · intro key token told serial' inst' member
        rcases backed.2 key token told serial' inst' member with answered | fell
        · exact Or.inl (List.mem_append.2 (Or.inl answered))
        · exact Or.inr fell
    · cases stepped
  · simp only [step] at stepped
    split at stepped
    · next flight found =>
        split at stepped
        · next reply ready =>
            cases stepped
            have there : flight ∈ world.flights := List.mem_of_find?_eq_some found
            have holds := List.find?_some found
            have own : flight.serial = serial := beq_iff_eq.1 holds
            constructor
            · intro flight' member told outcome
              exact List.mem_append.2
                (Or.inl (backed.1 flight' (List.mem_filter.1 member).1 told outcome))
            · intro key token told serial' inst' member
              rcases List.mem_append.1 member with old | new
              · rcases backed.2 key token told serial' inst' old with answered | fell
                · exact Or.inl (List.mem_append.2 (Or.inl answered))
                · exact Or.inr fell
              · cases List.mem_singleton.1 new
                unfold Flight.reply at ready
                split at ready
                · next outcome =>
                    cases ready
                    left
                    rw [← own]
                    exact List.mem_append.2 (Or.inl (backed.1 flight there _ outcome))
                · split at ready
                  · next ended =>
                      cases ready
                      rcases (ledger.flown flight there).1 with ⟨id, sent⟩
                      rw [own] at sent
                      exact Or.inr ⟨ended, id, flight.req, error, sent, rfl⟩
                  · cases ready
        · cases stepped
    · cases stepped

/-! ### Progress -/

/-- The stretches of a per-server task itself, and the waits it can end. -/
def Event.Own (id : Nat) : Event κ α → Prop
  | .spawned id' | .initTimeout id' | .take id' | .stopped id' | .reaped id' _ _ _ | .wake id' =>
      id' = id
  | _ => False

/-- A task that has not returned, and has a message, never waits on nothing. -/
theorem task_goes_on {id : Nat} {task : Task κ α} (found : world.tasks id = some task)
    (live : task.stage ≠ .gone) (queued : task.queue ≠ []) :
    ∃ event next, event.Own id ∧ step world event = some next := by
  cases stage : task.stage with
  | spawning => exact ⟨.spawned id, _, rfl, by simp [step, found, stage]; rfl⟩
  | initializing inst => exact ⟨.initTimeout id, _, rfl, by simp [step, found, stage]; rfl⟩
  | serving inst =>
      cases messages : task.queue with
      | nil => exact absurd messages queued
      | cons msg rest =>
          exact ⟨.take id, _, rfl, by simp [step, found, stage, messages]; rfl⟩
  | stopping inst => exact ⟨.stopped id, _, rfl, by simp [step, found, stage]; rfl⟩
  | reaping ending =>
      cases ending with
      | shutdown => exact ⟨.reaped id none none 0, _, rfl, by simp [step, found, stage]; rfl⟩
      | died reason message status =>
          exact ⟨.reaped id none none 0, _, rfl, by simp [step, found, stage]; rfl⟩
  | sleeping backoff => exact ⟨.wake id, _, rfl, by simp [step, found, stage]; rfl⟩
  | gone => exact absurd stage live

/-! ### Landing -/

omit [DecidableEq κ] in
theorem Ledger.flight_unique {flight' : Flight κ α} (ledger : Ledger world)
    (there : flight ∈ world.flights) (there' : flight' ∈ world.flights)
    (same : flight'.serial = flight.serial) : flight' = flight := by
  have single := ledger.flying_le flight.serial
  unfold World.flying at single
  rw [List.countP_eq_length_filter] at single
  have inside : flight ∈ world.flights.filter (·.serial == flight.serial) :=
    List.mem_filter.2 ⟨there, beq_self_eq_true _⟩
  have inside' : flight' ∈ world.flights.filter (·.serial == flight.serial) :=
    List.mem_filter.2 ⟨there', beq_iff_eq.2 same⟩
  cases near : world.flights.filter (·.serial == flight.serial) with
  | nil =>
      rw [near] at inside
      cases inside
  | cons only rest =>
      rw [near, List.length_cons] at single
      have alone : rest = [] := List.eq_nil_of_length_eq_zero (by omega)
      rw [near, alone] at inside inside'
      rw [List.mem_singleton.1 inside, List.mem_singleton.1 inside']

/-- A flight whose answer is there, or whose instance is over, lands, and its request then has its
one reply. -/
theorem due_lands (kept : Kept world) (there : flight ∈ world.flights)
    (due : flight.outcome ≠ none ∨ flight.inst ∈ world.ended) (error : String) :
    ∃ next, step world (.settle flight.serial error) = some next ∧
      next.replies flight.serial = 1 := by
  cases found : world.flights.find? (·.serial == flight.serial) with
  | none =>
      have none := List.find?_eq_none.1 found flight there
      exact absurd (beq_self_eq_true _) none
  | some flight' =>
      have there' := List.mem_of_find?_eq_some found
      have holds := List.find?_some found
      have same := kept.ledger.flight_unique there there' (beq_iff_eq.1 holds)
      subst same
      have replies : ∃ reply, flight'.reply world.ended error = some reply := by
        unfold Flight.reply
        cases outcome : flight'.outcome with
        | some reply => exact ⟨reply, rfl⟩
        | none =>
            rcases due with told | ended
            · exact absurd outcome told
            · exact ⟨_, if_pos ended⟩
      rcases replies with ⟨reply, ready⟩
      have stepped : step world (.settle flight'.serial error) = some { world with
          flights := world.flights.filter (·.serial != flight'.serial)
          marks := world.marks ++
            [.reply flight'.key flight'.token reply flight'.serial (some flight'.inst)] } := by
        simp only [step, found, ready]
      refine ⟨_, stepped, ?_⟩
      have after := (step_kept kept stepped).ledger
      rcases kept.ledger.flown flight' there with ⟨⟨id, sent⟩, handed⟩
      have once := after.once flight'.serial _ sent
      have aloft := after.aloft flight'.serial
      have landed : World.flying { world with
          flights := world.flights.filter (·.serial != flight'.serial)
          marks := world.marks ++
            [.reply flight'.key flight'.token reply flight'.serial (some flight'.inst)] }
          flight'.serial = 0 := by
        apply List.countP_eq_zero.2
        intro other member flies
        have differs := (List.mem_filter.1 member).2
        rw [bne_iff_ne] at differs
        exact differs (beq_iff_eq.1 flies)
      have issued : 0 < World.issued { world with
          flights := world.flights.filter (·.serial != flight'.serial)
          marks := world.marks ++
            [.reply flight'.key flight'.token reply flight'.serial (some flight'.inst)] }
          flight'.serial := by
        apply List.countP_pos_iff.2
        exact ⟨_, List.mem_append.2 (Or.inl handed), beq_self_eq_true _⟩
      unfold World.replies
      omega

end

/-! ### Runs -/

/-- What a reply to a sent request is: what its instance answered, or the empty one. -/
def Settles (events : List (Event κ α)) (world : World κ α) (serial : Nat) (req : LspRequest α)
    (reply : LspReply α) : Option Nat → Prop
  | none => ∃ reason, reply = degradeRequest req reason
  | some inst => .issued serial inst ∈ world.marks ∧
      (.respond inst serial reply ∈ events ∨
        (inst ∈ world.ended ∧ ∃ error, reply = transportError req error))

/-- **Every request handed to a live server task is settled once.**  In every run: a request that was
sent is queued, in flight or replied to, one of the three and once, and was handed to at most one
instance; queued, it is in the channel of a task that has not returned and can go on; in flight, it
waits for the answer, not yet here, of an instance that runs, or its detached task can end it with its one reply; a
reply carries the token of its request and is the answer of the instance it was issued to, or an
empty one; and while no live task is registered under a key, `Ensure` starts a fresh one. -/
theorem manager_settles_once [DecidableEq κ] {events : List (Event κ α)} {world : World κ α}
    (reached : run step .start events = some world) :
    (∀ (serial : Nat) sent, world.sends[serial]? = some sent →
      world.queued sent.task serial + world.flying serial + world.replies serial = 1 ∧
      world.issued serial ≤ 1 ∧
      (0 < world.queued sent.task serial → ∃ task, world.tasks sent.task = some task ∧
        task.stage ≠ .gone ∧ ∃ event next, event.Own sent.task ∧ step world event = some next) ∧
      ∀ flight ∈ world.flights, flight.serial = serial →
        (flight.outcome = none ∧ flight.inst ∉ world.ended ∧
          ∃ id task, world.tasks id = some task ∧ task.stage.inst = some flight.inst) ∨
        ∀ error, ∃ next, step world (.settle serial error) = some next ∧
          next.replies serial = 1) ∧
    (∀ key token reply serial inst, .reply key token reply serial inst ∈ world.marks →
      ∃ id req, world.sends[serial]? = some ⟨id, key, token, req⟩ ∧
        Settles events world serial req reply inst) ∧
    (∀ id task, world.tasks id = some task → task.stage = .gone → task.queue = []) ∧
    ∀ key program, world.closed = false →
      (∀ id task, world.servers key = some id → world.tasks id = some task →
        task.stage = .gone) →
      ∃ next, step world (.command (.ensure key program)) = some next ∧
        world.tasks world.nextTask = none ∧ next.servers key = some world.nextTask ∧
        next.tasks world.nextTask = some ⟨key, program, .spawning, [], []⟩ := by
  have kept : Kept world :=
    run_invariant Kept (fun _ _ _ kept stepped => step_kept kept stepped) start_kept reached
  have backed : Backed events world := by
    have both : Backed events world ∧ Ledger world := by
      apply run_history (fun events world => Backed events world ∧ Ledger world) _ _ reached
      · refine ⟨⟨?_, ?_⟩, start_kept.ledger⟩
        · intro flight member
          cases member
        · intro key token reply serial inst member
          cases member
      · rintro events state event next before ⟨backed, ledger⟩ stepped
        have keptState : Kept state :=
          run_invariant Kept (fun _ _ _ kept stepped => step_kept kept stepped) start_kept before
        exact ⟨step_backed ledger backed stepped, (step_kept keptState stepped).ledger⟩
    exact both.1
  refine ⟨?_, ?_, kept.alive.gone, ?_⟩
  · intro serial sent found
    have once := kept.ledger.once serial sent found
    have aloft := kept.ledger.aloft serial
    refine ⟨by unfold World.replies; omega, by omega, ?_, ?_⟩
    · intro waits
      rcases List.countP_pos_iff.1 waits with ⟨ask, member, -⟩
      cases task? : world.tasks sent.task with
      | none =>
          unfold World.asked at member
          rw [task?] at member
          cases member
      | some task =>
          rw [asked_eq task?] at member
          have queued : task.queue ≠ [] := by
            intro empty
            rw [empty] at member
            cases member
          have live : task.stage ≠ .gone :=
            fun gone => queued (kept.alive.gone sent.task task task? gone)
          exact ⟨task, rfl, live, task_goes_on task? live queued⟩
    · rintro flight there rfl
      by_cases answered : flight.outcome ≠ none
      · exact Or.inr fun error => due_lands kept there (Or.inl answered) error
      by_cases over? : flight.inst ∈ world.ended
      · exact Or.inr fun error => due_lands kept there (Or.inr over?) error
      · left
        exact ⟨not_not.1 answered, over?,
          kept.alive.running flight.inst (kept.alive.flown flight there) over?⟩
  · intro key token reply serial inst member
    rcases kept.ledger.replied key token reply serial inst member with ⟨id, req, sent, how⟩
    refine ⟨id, req, sent, ?_⟩
    cases inst with
    | none => exact how
    | some inst =>
        refine ⟨how, ?_⟩
        rcases backed.2 key token reply serial inst member with
          answered | ⟨ended, id', req', error, sent', same⟩
        · exact Or.inl answered
        · rw [sent] at sent'
          cases sent'
          exact Or.inr ⟨ended, error, same⟩
  · intro key program openEnd given
    have dead : world.live key = false := by
      unfold World.live
      cases registered : world.servers key with
      | none => rfl
      | some id =>
          rcases kept.alive.registered key id registered with ⟨task, found, -⟩
          simp only [found]
          simp [given id task registered found]
    have stepped : step world (.command (.ensure key program)) =
        some (world.startServer key program) := by
      simp [step, openEnd, World.supervise, dead]
    exact ⟨_, stepped, kept.alive.fresh _ (Nat.le_refl _), if_pos rfl, if_pos rfl⟩

/-- A server that answers one request and dies with another queued behind the end of its loop. -/
def shortLife : List (Event Unit Unit) :=
  [.command (.ensure () "server"), .spawned 0, .initOk 0 (),
    .command (.request () 7 (.hover ())), .take 0, .respond 0 0 (.hover ["text"] .plaintext),
    .settle 0 "", .loopEnd 0, .noticeEnd 0 .ok, .command (.request () 8 (.raw "method" ())),
    .reaped 0 none none 5]

theorem manager_settles_once_short : ∃ world, run step .start shortLife = some world ∧
    world.replies 0 = 1 ∧ world.replies 1 = 1 ∧ world.queued 0 1 = 0 := by
  cases reached : run step .start shortLife with
  | none => cases reached
  | some world =>
      have settled := (manager_settles_once reached).1
      cases reached
      have first := (settled 0 _ rfl).1
      have second := (settled 1 _ rfl).1
      exact ⟨_, rfl, first, second, rfl⟩

end Bemtvi.Lsp.Manager
