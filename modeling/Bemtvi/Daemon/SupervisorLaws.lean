/-
Module: Bemtvi.Daemon.SupervisorLaws
Purpose: The supervisor obeys its commands.  In every run the cells hold exactly the connection being
  served, commands are consumed in order and a `:disconnect` holds until a `:reconnect`; and when no
  `:reconnect` cuts a later backoff short, each drop and each `:reconnect` has the whole budget.
Trusted boundary: none
Main exports: Fits, Kept, step_kept, supervisor_obeys, reconnect_keeps_old_budget
-/
import Bemtvi.Daemon.Supervisor

namespace Bemtvi.Daemon.Supervisor

open Run (Lawful run Along run_along lawful_concat)

/-! ### One mark at a time -/

@[simp] theorem ledger_concat (trace : List Mark) (mark : Mark) :
    ledger (trace ++ [mark]) = (ledger trace).after mark := by
  simp [ledger, List.foldl_append]

@[simp] theorem sentOf_concat (trace : List Mark) (mark : Mark) :
    sentOf (trace ++ [mark]) = sentOf trace ++ sentOf [mark] := by
  simp [sentOf]

@[simp] theorem consumedOf_concat (trace : List Mark) (mark : Mark) :
    consumedOf (trace ++ [mark]) = consumedOf trace ++ consumedOf [mark] := by
  simp [consumedOf]

/-- What holds at every point, also within a step. -/
structure Base (policy : ReconnectPolicy) (link : Link) : Prop where
  lawful : Lawful (Ok policy) link.trace
  cells : link.cells = .all (ledger link.trace).cells
  order : sentOf link.trace = consumedOf link.trace ++ link.queue

/-- What the ledger says at each waiting point. -/
def Fits (policy : ReconnectPolicy) (ledger : Ledger) : Phase → Prop
  | .serving conn => ledger.cells = some conn ∧ ledger.served = some conn ∧
      ledger.down = false ∧ ledger.settled = true
  | .backoff n => ledger.cells = none ∧ ledger.served = none ∧ ledger.down = false ∧
      ledger.settled = false ∧ ledger.dials + 1 = n ∧ n ≤ policy.maxAttempts
  | .dialing n => ledger.cells = none ∧ ledger.served = none ∧ ledger.down = false ∧
      ledger.settled = false ∧ ledger.dials = n ∧ n ≤ policy.maxAttempts
  | .parked => ledger.cells = none ∧ ledger.served = none ∧
      (ledger.settled = false → ledger.dials = policy.maxAttempts)
  | .returned => ledger.cells = none ∧ ledger.served = none ∧ ledger.settled = true

/-- What every step preserves. -/
structure Kept (policy : ReconnectPolicy) (link : Link) : Prop extends Base policy link where
  fits : Fits policy (ledger link.trace) link.phase

variable {policy : ReconnectPolicy} {link : Link}

/-- A mark that is no command and neither fills nor empties the cells. -/
theorem Base.note (base : Base policy link) {mark : Mark} (allowed : Ok policy link.trace mark)
    (cells : ((ledger link.trace).after mark).cells = (ledger link.trace).cells)
    (sent : sentOf [mark] = []) (consumed : consumedOf [mark] = []) :
    Base policy (link.note mark) := by
  constructor
  · exact lawful_concat.2 ⟨base.lawful, allowed⟩
  · simp only [Link.note, ledger_concat, cells]
    exact base.cells
  · simp only [Link.note, sentOf_concat, consumedOf_concat, sent, consumed, List.append_nil]
    exact base.order

theorem Base.clearCells (base : Base policy link) : Base policy link.clearCells := by
  constructor
  · exact lawful_concat.2 ⟨base.lawful, trivial⟩
  · simp only [Link.clearCells, Link.note, ledger_concat]
    rfl
  · simp only [Link.clearCells, Link.note, sentOf_concat, consumedOf_concat]
    simpa [sentOf, consumedOf] using base.order

theorem Base.publishCells (base : Base policy link) (conn : Conn)
    (up : (ledger link.trace).down = false) : Base policy (link.publishCells conn) := by
  constructor
  · exact lawful_concat.2 ⟨base.lawful, up⟩
  · simp only [Link.publishCells, Link.note, ledger_concat]
    rfl
  · simp only [Link.publishCells, Link.note, sentOf_concat, consumedOf_concat]
    simpa [sentOf, consumedOf] using base.order

theorem Base.sendReplace (base : Base policy link) {status : DaemonStatus}
    (allowed : Ok policy link.trace (.status status)) : Base policy (link.sendReplace status) := by
  constructor
  · exact lawful_concat.2 ⟨base.lawful, allowed⟩
  · simp only [Link.sendReplace, Link.note, ledger_concat]
    exact base.cells
  · simp only [Link.sendReplace, Link.note, sentOf_concat, consumedOf_concat]
    simpa [sentOf, consumedOf] using base.order

/-! ### The pieces of a step -/

/-- A dial starts with a budget left, nothing served and no `:disconnect` pending. -/
theorem Base.make (base : Base policy link) {n : Nat} (empty : (ledger link.trace).cells = none)
    (idle : (ledger link.trace).served = none) (up : (ledger link.trace).down = false)
    (open_budget : (ledger link.trace).settled = false)
    (count : (ledger link.trace).dials + 1 = n) (within : n ≤ policy.maxAttempts) :
    Kept policy (link.make n) := by
  have allowed : Ok policy link.trace (.dialed n) := ⟨up, idle, by omega⟩
  have noted := base.note allowed rfl rfl rfl
  constructor
  · constructor
    · exact noted.lawful
    · exact noted.cells
    · exact noted.order
  · simp only [Link.make, Link.note, ledger_concat]
    exact ⟨empty, idle, up, open_budget, count, within⟩

/-- Parking, when the budget is spent or no longer matters. -/
theorem Base.park (base : Base policy link) (idle : (ledger link.trace).served = none)
    (spent : (ledger link.trace).settled = false →
      (ledger link.trace).dials = policy.maxAttempts) : Kept policy link.park := by
  have cleared := base.clearCells
  have same : ledger link.clearCells.trace = { ledger link.trace with cells := none } := by
    simp only [Link.clearCells, Link.note, ledger_concat]
    rfl
  have allowed : Ok policy link.clearCells.trace (.status .disconnected) := by
    constructor
    · rw [same]
    · rw [same]
      exact spent
  have sent := cleared.sendReplace allowed
  constructor
  · constructor
    · exact sent.lawful
    · exact sent.cells
    · exact sent.order
  · simp only [Link.park, Link.sendReplace, Link.note, ledger_concat, same]
    exact ⟨rfl, idle, spent⟩

/-- An attempt announces itself and waits, dials, or gives up with the budget spent. -/
theorem Base.attempt (base : Base policy link) {n : Nat} {immediate : Bool}
    (empty : (ledger link.trace).cells = none) (idle : (ledger link.trace).served = none)
    (up : (ledger link.trace).down = false) (open_budget : (ledger link.trace).settled = false)
    (count : (ledger link.trace).dials + 1 = n) (within : n ≤ policy.maxAttempts + 1) :
    Kept policy (link.attempt policy n immediate) := by
  unfold Link.attempt
  split
  · next fits =>
      have announced : Base policy (link.sendReplace (.reconnecting n policy.maxAttempts)) :=
        base.sendReplace ⟨empty, rfl⟩
      have same : ledger (link.sendReplace (.reconnecting n policy.maxAttempts)).trace =
          ledger link.trace := by
        simp only [Link.sendReplace, Link.note, ledger_concat]
        rfl
      simp only
      split
      · apply announced.make
        · rw [same]
          exact empty
        · rw [same]
          exact idle
        · rw [same]
          exact up
        · rw [same]
          exact open_budget
        · rw [same]
          exact count
        · exact fits
      · constructor
        · constructor
          · exact announced.lawful
          · exact announced.cells
          · exact announced.order
        · simp only
          rw [same]
          exact ⟨empty, idle, up, open_budget, count, fits⟩
  · next beyond =>
      apply base.park idle
      intro _
      omega

/-- The ledger once the cells are cleared. -/
theorem ledger_clearCells (link : Link) :
    ledger link.clearCells.trace = { ledger link.trace with cells := none } := by
  simp only [Link.clearCells, Link.note, ledger_concat]
  rfl

/-- The turn of `maintain_link` behind a served connection, an interrupted wait or a dropped
handle. -/
theorem Base.maintain (base : Base policy link) {served : Served}
    (idle : (ledger link.trace).served = none)
    (fresh : served = .dropped → (ledger link.trace).down = false ∧
      (ledger link.trace).settled = false ∧ (ledger link.trace).dials = 0)
    (ended : served ≠ .dropped → (ledger link.trace).settled = true) :
    Kept policy (link.maintain policy served) := by
  cases served with
  | dropped =>
      rcases fresh rfl with ⟨up, open_budget, none_yet⟩
      apply base.clearCells.attempt
      · rw [ledger_clearCells]
      · rw [ledger_clearCells]
        exact idle
      · rw [ledger_clearCells]
        exact up
      · rw [ledger_clearCells]
        exact open_budget
      · rw [ledger_clearCells, none_yet]
      · omega
  | disconnect =>
      apply base.park idle
      intro unsettled
      rw [ended (by decide)] at unsettled
      cases unsettled
  | closed =>
      have cleared := base.clearCells
      have noted : Base policy (link.clearCells.note .returned) := by
        apply cleared.note _ rfl rfl rfl
        simp only [Ok, ledger_clearCells]
      constructor
      · constructor
        · exact noted.lawful
        · exact noted.cells
        · exact noted.order
      · simp only [Link.maintain, Link.note, ledger_concat, ledger_clearCells]
        exact ⟨rfl, idle, ended (by decide)⟩

/-! ### Steps -/

/-- No `:reconnect` is taken off the queue during the backoff before a second or later attempt. -/
def Meets (link : Link) : Event → Prop
  | .receive => ∀ n rest, link.phase = .backoff n → link.queue = .reconnect :: rest → n = 1
  | _ => True

variable {cmd : LinkCommand} {rest : List LinkCommand} {next : Link}

/-- A command off the queue is noted, in order. -/
theorem Base.consumed (base : Base policy link) (queued : link.queue = cmd :: rest) :
    Base policy ({ link with queue := rest }.note (.consumed cmd)) := by
  constructor
  · exact lawful_concat.2 ⟨base.lawful, trivial⟩
  · simp only [Link.note, ledger_concat]
    rw [base.cells]
    cases cmd with
    | reconnect =>
        simp only [Ledger.after]
        split <;> rfl
    | disconnect => rfl
  · simp only [Link.note, sentOf_concat, consumedOf_concat]
    have order := base.order
    rw [queued] at order
    rw [order]
    simp [sentOf, consumedOf]

/-- A consumed command leaves the run in order, at each place it can be consumed. -/
theorem consume_kept (kept : Kept policy link) (queued : link.queue = cmd :: rest)
    (meets : ∀ n, link.phase = .backoff n → cmd = .reconnect → n = 1)
    (consumed : ({ link with queue := rest }.note (.consumed cmd)).consume policy cmd = some next) :
    Kept policy next := by
  have noted := kept.toBase.consumed queued
  have after : ledger ({ link with queue := rest }.note (.consumed cmd)).trace =
      (ledger link.trace).after (.consumed cmd) := ledger_concat _ _
  have fits := kept.fits
  have samePhase : ({ link with queue := rest }.note (.consumed cmd)).phase = link.phase := rfl
  generalize { link with queue := rest }.note (.consumed cmd) = link' at *
  cases cmd with
  | reconnect =>
      unfold Link.consume at consumed
      simp only [samePhase] at consumed
      split at consumed
      · next conn serving =>
          -- Already connected: ignored.
          cases consumed
          rw [serving] at fits
          rcases fits with ⟨full, served, up, settled⟩
          constructor
          · exact noted
          · have ignored : (ledger link.trace).after (.consumed .reconnect) =
                { ledger link.trace with down := false } := by
              simp [Ledger.after, served]
            rw [after, ignored, samePhase, serving]
            exact ⟨full, served, rfl, settled⟩
      · next n waiting =>
          cases consumed
          rw [waiting] at fits
          rcases fits with ⟨empty, idle, up, open_budget, count, within⟩
          have first := meets n waiting rfl
          have renewed : (ledger link.trace).after (.consumed .reconnect) =
              { ledger link.trace with down := false }.reset := by
            simp [Ledger.after, idle]
          rw [renewed] at after
          apply noted.make
          · rw [after]
            exact empty
          · rw [after]
            exact idle
          · rw [after]
            rfl
          · rw [after]
            rfl
          · rw [after, first]
            rfl
          · exact within
      · next parked =>
          cases consumed
          rw [parked] at fits
          rcases fits with ⟨empty, idle, -⟩
          have renewed : (ledger link.trace).after (.consumed .reconnect) =
              { ledger link.trace with down := false }.reset := by
            simp [Ledger.after, idle]
          rw [renewed] at after
          apply noted.attempt
          · rw [after]
            exact empty
          · rw [after]
            exact idle
          · rw [after]
            rfl
          · rw [after]
            rfl
          · rw [after]
            rfl
          · omega
      · cases consumed
      · cases consumed
  | disconnect =>
      unfold Link.consume at consumed
      simp only [samePhase] at consumed
      split at consumed
      · next conn serving =>
          cases consumed
          have ended : Base policy (link'.note (.served conn .disconnect)) :=
            noted.note trivial rfl rfl rfl
          have after' : ledger (link'.note (.served conn .disconnect)).trace =
              (ledger link'.trace).after (.served conn .disconnect) := ledger_concat _ _
          apply ended.maintain
          · rw [after']
            rfl
          · intro dropped
            cases dropped
          · intro _
            rw [after', after]
            rfl
      · next n waiting =>
          cases consumed
          rw [waiting] at fits
          apply noted.maintain
          · rw [after]
            exact fits.2.1
          · intro dropped
            cases dropped
          · intro _
            rw [after]
            rfl
      · next parked =>
          cases consumed
          rw [parked] at fits
          constructor
          · exact noted
          · rw [after, samePhase, parked]
            exact ⟨fits.1, fits.2.1, fun unsettled => by cases unsettled⟩
      · cases consumed
      · cases consumed

/-- A dropped handle ends the run with the cells empty. -/
theorem close_kept (kept : Kept policy link)
    (closed : (link.note .closed).close policy = some next) : Kept policy next := by
  have noted : Base policy (link.note .closed) := kept.toBase.note trivial rfl rfl rfl
  have after : ledger (link.note .closed).trace = (ledger link.trace).after .closed :=
    ledger_concat _ _
  have fits := kept.fits
  have samePhase : (link.note .closed).phase = link.phase := rfl
  unfold Link.close at closed
  simp only [samePhase] at closed
  split at closed
  · next conn serving =>
      cases closed
      have ended : Base policy ((link.note .closed).note (.served conn .closed)) :=
        noted.note trivial rfl rfl rfl
      have after' : ledger ((link.note .closed).note (.served conn .closed)).trace =
          (ledger (link.note .closed).trace).after (.served conn .closed) := ledger_concat _ _
      apply ended.maintain
      · rw [after']
        rfl
      · intro dropped
        cases dropped
      · intro _
        rw [after', after]
        rfl
  · next n waiting =>
      cases closed
      rw [waiting] at fits
      apply noted.maintain
      · rw [after]
        exact fits.2.1
      · intro dropped
        cases dropped
      · intro _
        rw [after]
        rfl
  · next parked =>
      cases closed
      rw [parked] at fits
      have ended : Base policy ((link.note .closed).note .returned) := by
        apply noted.note _ rfl rfl rfl
        simp only [Ok, after]
        exact fits.1
      constructor
      · constructor
        · exact ended.lawful
        · exact ended.cells
        · exact ended.order
      · simp only [Link.note, ledger_concat]
        exact ⟨fits.1, fits.2.1, rfl⟩
  · cases closed
  · cases closed

/-- A command is queued. -/
theorem command_kept (kept : Kept policy link)
    (stepped : step policy link (.command cmd) = some next) : Kept policy next := by
  have fits := kept.fits
  simp only [step] at stepped
  split at stepped
  · cases stepped
    constructor
    · constructor
      · exact lawful_concat.2 ⟨kept.lawful, trivial⟩
      · simp only [Link.note, ledger_concat]
        exact kept.cells
      · simp only [Link.note, sentOf_concat, consumedOf_concat, kept.order]
        simp [sentOf, consumedOf]
    · simp only [Link.note, ledger_concat]
      exact fits
  · cases stepped

/-- The connection that is served drops. -/
theorem drop_kept (kept : Kept policy link) (stepped : step policy link .drop = some next) :
    Kept policy next := by
  have fits := kept.fits
  simp only [step] at stepped
  split at stepped
  · next conn serving =>
      cases stepped
      rw [serving] at fits
      rcases fits with ⟨full, served, up, -⟩
      have noted : Base policy (link.note (.served conn .dropped)) :=
        kept.toBase.note trivial rfl rfl rfl
      have after : ledger (link.note (.served conn .dropped)).trace =
          (ledger link.trace).after (.served conn .dropped) := ledger_concat _ _
      apply noted.maintain
      · rw [after]
        rfl
      · intro _
        rw [after]
        exact ⟨up, rfl, rfl⟩
      · intro notDropped
        exact absurd rfl notDropped
  · cases stepped

/-- A backoff ends. -/
theorem elapse_kept (kept : Kept policy link) (stepped : step policy link .elapse = some next) :
    Kept policy next := by
  have fits := kept.fits
  simp only [step] at stepped
  split at stepped
  · next n waiting =>
      cases stepped
      rw [waiting] at fits
      rcases fits with ⟨empty, idle, up, open_budget, count, within⟩
      have noted : Base policy (link.note (.slept (policy.backoff n))) :=
        kept.toBase.note trivial rfl rfl rfl
      have after : ledger (link.note (.slept (policy.backoff n))).trace =
          ledger link.trace := ledger_concat _ _
      apply noted.make
      · rw [after]
        exact empty
      · rw [after]
        exact idle
      · rw [after]
        exact up
      · rw [after]
        exact open_budget
      · rw [after]
        exact count
      · exact within
  · cases stepped

/-- A dial succeeds: the cells are published and the session announced. -/
theorem dialOk_kept {conn : Conn} (kept : Kept policy link)
    (stepped : step policy link (.dialOk conn) = some next) : Kept policy next := by
  have fits := kept.fits
  simp only [step] at stepped
  split at stepped
  · next n dialing =>
      cases stepped
      rw [dialing] at fits
      rcases fits with ⟨empty, idle, up, open_budget, count, within⟩
      have noted : Base policy (link.note (.dialSucceeded conn)) :=
        kept.toBase.note trivial rfl rfl rfl
      have after : ledger (link.note (.dialSucceeded conn)).trace =
          (ledger link.trace).after (.dialSucceeded conn) := ledger_concat _ _
      have published := noted.publishCells conn (by rw [after]; exact up)
      have after' : ledger ((link.note (.dialSucceeded conn)).publishCells conn).trace =
          ((ledger link.trace).after (.dialSucceeded conn)).after (.published conn) := by
        rw [← after]
        exact ledger_concat _ _
      have announced : Base policy
          (((link.note (.dialSucceeded conn)).publishCells conn).sendReplace .connected) := by
        apply published.sendReplace
        constructor
        · rw [after']
          rfl
        · rw [after']
          rfl
      constructor
      · constructor
        · exact announced.lawful
        · exact announced.cells
        · exact announced.order
      · have after'' : ledger (((link.note (.dialSucceeded conn)).publishCells
            conn).sendReplace .connected).trace =
            ((ledger link.trace).after (.dialSucceeded conn)).after (.published conn) := by
          rw [← after']
          exact ledger_concat _ _
        simp only
        rw [after'']
        exact ⟨rfl, rfl, up, rfl⟩
  · cases stepped

/-- A dial fails. -/
theorem dialErr_kept (kept : Kept policy link) (stepped : step policy link .dialErr = some next) :
    Kept policy next := by
  have fits := kept.fits
  simp only [step] at stepped
  split at stepped
  · next n dialing =>
      cases stepped
      rw [dialing] at fits
      rcases fits with ⟨empty, idle, up, open_budget, count, within⟩
      have noted : Base policy (link.note (.dialFailed n)) :=
        kept.toBase.note trivial rfl rfl rfl
      have after : ledger (link.note (.dialFailed n)).trace = ledger link.trace :=
        ledger_concat _ _
      apply noted.attempt
      · rw [after]
        exact empty
      · rw [after]
        exact idle
      · rw [after]
        exact up
      · rw [after]
        exact open_budget
      · rw [after, count]
      · omega
  · cases stepped

theorem step_kept {event : Event} (kept : Kept policy link) (meets : Meets link event)
    (stepped : step policy link event = some next) : Kept policy next := by
  cases event with
  | command cmd => exact command_kept kept stepped
  | dropHandle =>
      cases stepped
      constructor
      · constructor
        · exact kept.lawful
        · exact kept.cells
        · exact kept.order
      · exact kept.fits
  | drop => exact drop_kept kept stepped
  | receive =>
      simp only [step] at stepped
      split at stepped
      · next cmd rest queued =>
          apply consume_kept kept queued _ stepped
          intro n waiting reconnects
          exact meets n rest waiting (reconnects ▸ queued)
      · split at stepped
        · cases stepped
        · exact close_kept kept stepped
  | elapse => exact elapse_kept kept stepped
  | dialOk conn => exact dialOk_kept kept stepped
  | dialErr => exact dialErr_kept kept stepped

/-! ### Runs -/

theorem connected_kept (policy : ReconnectPolicy) (first : Conn) :
    Kept policy (connected first) := by
  constructor
  · constructor
    · have published : Lawful (Ok policy) ([] ++ [.published first]) :=
        lawful_concat.2 ⟨Run.lawful_nil, rfl⟩
      have allowed : Ok policy ([] ++ [.published first]) (.status .connected) := ⟨rfl, rfl⟩
      exact lawful_concat.2 ⟨published, allowed⟩
    · rfl
    · rfl
  · exact ⟨rfl, rfl, rfl, rfl⟩

/-- **The supervisor obeys its commands.**  (1) The cells hold a connection exactly while it is
served, and each status change finds them as it says; (2) commands are consumed in the order they
were sent, and a consumed `:disconnect` keeps the link parked, with no dial and no new connection,
until a `:reconnect` is consumed; (3) until something settles a cycle it goes on to the whole
budget, never past it, and gives up with exactly the whole budget spent. -/
theorem supervisor_obeys {policy : ReconnectPolicy} {first : Conn} {events : List Event}
    {link : Link} (along : Along Meets (step policy) (connected first) events)
    (reached : run (step policy) (connected first) events = some link) :
    (∀ conn, link.cells = .all (some conn) ↔ link.phase = .serving conn) ∧
    ((∀ conn, link.phase ≠ .serving conn) → link.cells = .all none) ∧
    sentOf link.trace = consumedOf link.trace ++ link.queue ∧
    ((ledger link.trace).down = true → link.phase = .parked ∨ link.phase = .returned) ∧
    ((ledger link.trace).settled = false → (ledger link.trace).dials < policy.maxAttempts →
      ∃ n, link.phase = .backoff n ∨ link.phase = .dialing n) ∧
    ((ledger link.trace).settled = false → (ledger link.trace).dials ≤ policy.maxAttempts) ∧
    Lawful (Ok policy) link.trace := by
  have kept : Kept policy link :=
    run_along (Kept policy) (fun _ _ _ kept meets stepped => step_kept kept meets stepped)
      (connected_kept policy first) along reached
  have fits := kept.fits
  have cells := kept.cells
  cases phase : link.phase with
  | serving conn =>
      rw [phase] at fits
      rcases fits with ⟨full, served, up, settled⟩
      rw [full] at cells
      refine ⟨?_, ?_, kept.order, ?_, ?_, ?_, kept.lawful⟩
      · intro other
        rw [cells]
        constructor
        · intro same
          cases same
          rfl
        · intro same
          cases same
          rfl
      · intro idle
        exact absurd rfl (idle conn)
      · intro down
        rw [up] at down
        cases down
      · intro unsettled
        rw [settled] at unsettled
        cases unsettled
      · intro unsettled
        rw [settled] at unsettled
        cases unsettled
  | backoff n =>
      rw [phase] at fits
      rcases fits with ⟨empty, idle, up, open_budget, count, within⟩
      rw [empty] at cells
      refine ⟨?_, fun _ => cells, kept.order, ?_, fun _ _ => ⟨n, Or.inl rfl⟩, ?_, kept.lawful⟩
      · intro other
        rw [cells]
        constructor <;> intro same <;> cases same
      · intro down
        rw [up] at down
        cases down
      · intro _
        omega
  | dialing n =>
      rw [phase] at fits
      rcases fits with ⟨empty, idle, up, open_budget, count, within⟩
      rw [empty] at cells
      refine ⟨?_, fun _ => cells, kept.order, ?_, fun _ _ => ⟨n, Or.inr rfl⟩, ?_, kept.lawful⟩
      · intro other
        rw [cells]
        constructor <;> intro same <;> cases same
      · intro down
        rw [up] at down
        cases down
      · intro _
        omega
  | parked =>
      rw [phase] at fits
      rcases fits with ⟨empty, idle, spent⟩
      rw [empty] at cells
      refine ⟨?_, fun _ => cells, kept.order, fun _ => Or.inl rfl, ?_, ?_, kept.lawful⟩
      · intro other
        rw [cells]
        constructor <;> intro same <;> cases same
      · intro unsettled left
        have all := spent unsettled
        omega
      · intro unsettled
        exact Nat.le_of_eq (spent unsettled)
  | returned =>
      rw [phase] at fits
      rcases fits with ⟨empty, idle, settled⟩
      rw [empty] at cells
      refine ⟨?_, fun _ => cells, kept.order, fun _ => Or.inr rfl, ?_, ?_, kept.lawful⟩
      · intro other
        rw [cells]
        constructor <;> intro same <;> cases same
      · intro unsettled
        rw [settled] at unsettled
        cases unsettled
      · intro unsettled
        rw [settled] at unsettled
        cases unsettled

/-- Three attempts at most. -/
def thrice : ReconnectPolicy := ⟨3, 500, 8000⟩

/-- Down at the user's word, up again after two failed dials. -/
def patient : List Event :=
  [.command .disconnect, .receive, .command .reconnect, .receive, .dialErr, .elapse, .dialErr,
    .elapse, .dialOk 7]

theorem supervisor_obeys_patient : ∃ link,
    run (step thrice) (connected 4) patient = some link ∧ link.phase = .serving 7 ∧
      link.cells = .all (some 7) ∧ sentOf link.trace = consumedOf link.trace ++ link.queue := by
  have along : Along Meets (step thrice) (connected 4) patient := by
    refine ⟨trivial, ?_⟩
    rintro next ⟨⟩
    refine ⟨?_, ?_⟩
    · rintro n rest ⟨⟩
    rintro next ⟨⟩
    refine ⟨trivial, ?_⟩
    rintro next ⟨⟩
    refine ⟨?_, ?_⟩
    · rintro n rest ⟨⟩
    rintro next ⟨⟩
    refine ⟨trivial, ?_⟩
    rintro next ⟨⟩
    refine ⟨trivial, ?_⟩
    rintro next ⟨⟩
    refine ⟨trivial, ?_⟩
    rintro next ⟨⟩
    refine ⟨trivial, ?_⟩
    rintro next ⟨⟩
    refine ⟨trivial, ?_⟩
    rintro next ⟨⟩
    trivial
  cases reached : run (step thrice) (connected 4) patient with
  | none => cases reached
  | some link =>
      have obeys := supervisor_obeys along reached
      cases reached
      exact ⟨_, rfl, rfl, (obeys.1 7).2 rfl, obeys.2.2.1⟩

/-- A drop, a failed first attempt, and a `:reconnect` during the backoff before the second. -/
def impatient : List Event :=
  [.drop, .elapse, .dialErr, .command .reconnect, .receive, .dialErr, .elapse, .dialErr]

/-- The `:reconnect` dials at once, but on the old budget: it gives up after two dials of three. -/
theorem reconnect_keeps_old_budget : ∃ link,
    run (step thrice) (connected 4) impatient = some link ∧ consumedOf link.trace = [.reconnect] ∧
      link.phase = .parked ∧ (ledger link.trace).settled = false ∧
      (ledger link.trace).dials < thrice.maxAttempts :=
  ⟨_, rfl, rfl, rfl, rfl, by decide⟩

end Bemtvi.Daemon.Supervisor
