/-
Module: Bemtvi.Daemon.ProcLaws
Purpose: Every process run through the link ends exactly once.  What is said about one run is said
  against the link's phase and its place in the map; every event keeps it; and when no unsent
  notification is waited for, a run whose end is due needs nothing but its own polls to report it.
Trusted boundary: none
Main exports: Run.Sound, Kept, step_kept, Due, due_ends, proc_ends_once, unsent_spawn_waits
-/
import Bemtvi.Daemon.Proc
import Bemtvi.Lib.Run

namespace Bemtvi.Daemon.Proc

open Msgpack (Value)
open Rpc (notification)
open Bemtvi.Run (run Along run_along run_history)

/-! ### One run -/

/-- The connection whose teardown has not finished. -/
def LinkPhase.Live (phase : LinkPhase) (conn : Conn) : Prop :=
  phase = .up conn ∨ phase = .ended conn ∨ phase = .clearing conn

def LinkPhase.Clearing (phase : LinkPhase) : Prop := ∃ conn, phase = .clearing conn

/-- What a run has delivered: no exit before the end, exactly one there, last. -/
def Shaped : Stage → List DaemonEvent → Prop
  | .left, delivered | .done, delivered => ∃ front last, delivered = front ++ [last] ∧
      last.isExit ∧ ∀ event ∈ front, event.isExit = false
  | .waiting, delivered => ∀ event ∈ delivered, event.isExit = false
  | _, delivered => delivered = []

/-- A run, against the link's phase and whether the map holds its sender. -/
structure Run.Sound (phase : LinkPhase) (held : Prop) (run : Run) : Prop where
  shaped : Shaped run.stage run.delivered
  absent : run.stage = .created ∨ run.stage = .checked ∨ run.stage = .done → ¬ held
  unsent_early : run.stage ≠ .waiting → run.stage ≠ .left → run.stage ≠ .done →
    run.sentOn = none
  reported_sent : run.reported = true → run.sentOn ≠ none
  sending : ∀ conn, run.stage = .sending conn → held → phase.Live conn
  sent : ∀ conn, run.stage = .waiting → run.sentOn = some conn → held → phase.Live conn
  unsent : run.stage = .waiting → run.sentOn = none → held → phase.Clearing
  reported : run.stage = .waiting → run.reported = true → held →
    ∃ event ∈ run.queue, event.isExit = true

variable {held : Prop} {id other : Nat} {new run' : Run} {event : Event}

/-- A run that neither sends nor waits asks nothing of the link. -/
theorem Run.Sound.idle {run : Run} {phase : LinkPhase} (shaped : Shaped run.stage run.delivered)
    (absent : run.stage = .created ∨ run.stage = .checked ∨ run.stage = .done → ¬ held)
    (unsent_early : run.stage ≠ .waiting → run.stage ≠ .left → run.stage ≠ .done →
      run.sentOn = none) (reported_sent : run.reported = true → run.sentOn ≠ none)
    (still : ∀ conn, run.stage ≠ .sending conn) (awake : run.stage ≠ .waiting) :
    run.Sound phase held where
  shaped := shaped
  absent := absent
  unsent_early := unsent_early
  reported_sent := reported_sent
  sending := fun conn sending => absurd sending (still conn)
  sent := fun _ waiting => absurd waiting awake
  unsent := fun waiting => absurd waiting awake
  reported := fun waiting => absurd waiting awake

/-- The link moves on, or the run's sender is dropped. -/
theorem Run.Sound.relink {phase phase' : LinkPhase} {held' : Prop} {run : Run}
    (sound : run.Sound phase held) (fewer : held' → held)
    (live : ∀ conn, held' → phase.Live conn → phase'.Live conn)
    (clearing : held' → phase.Clearing → phase'.Clearing) : run.Sound phase' held' := by
  constructor
  · exact sound.shaped
  · intro early here
    exact sound.absent early (fewer here)
  · exact sound.unsent_early
  · exact sound.reported_sent
  · intro conn stage here
    exact live conn here (sound.sending conn stage (fewer here))
  · intro conn stage sent here
    exact live conn here (sound.sent conn stage sent (fewer here))
  · intro stage sent here
    exact clearing here (sound.unsent stage sent (fewer here))
  · intro stage reported here
    exact sound.reported stage reported (fewer here)

/-! ### The world -/

/-- What every step preserves. -/
structure Kept (world : World) : Prop where
  cell : ∀ conn, world.cell = some conn → world.phase = .up conn ∨ world.phase = .ended conn
  known : ∀ id ∈ world.inflight, (world.runs id).isSome
  fresh : ∀ id, world.nextId ≤ id → world.runs id = none
  counted : ∀ conn, world.phase.Live conn → conn < world.conns
  runs : ∀ id run, world.runs id = some run → run.Sound world.phase (id ∈ world.inflight)

theorem Kept.not_inflight {world : World} (kept : Kept world) (unknown : world.runs id = none) :
    id ∉ world.inflight := by
  intro member
  have known := kept.known id member
  rw [unknown] at known
  cases known

@[simp] theorem setRun_self (world : World) (id : Nat) (run : Run) :
    (world.setRun id run).runs id = some run := by
  simp [World.setRun]

theorem setRun_other (world : World) (run : Run) (differ : other ≠ id) :
    (world.setRun id run).runs other = world.runs other := by
  simp [World.setRun, differ]

/-- One run moves, and nothing else does. -/
theorem Kept.setRun {world : World} (kept : Kept world) {old : Run}
    (found : world.runs id = some old) (sound : new.Sound world.phase (id ∈ world.inflight)) :
    Kept (world.setRun id new) := by
  constructor
  · exact kept.cell
  · intro other member
    by_cases same : other = id
    · rw [same, setRun_self]
      rfl
    · rw [setRun_other world new same]
      exact kept.known other member
  · intro other later
    by_cases same : other = id
    · rw [same] at later
      rw [kept.fresh id later] at found
      cases found
    · rw [setRun_other world new same]
      exact kept.fresh other later
  · exact kept.counted
  · intro other run found'
    by_cases same : other = id
    · subst same
      rw [setRun_self] at found'
      cases found'
      exact sound
    · rw [setRun_other world new same] at found'
      exact kept.runs other run found'

/-- The link moves on, or senders are dropped. -/
theorem Kept.relink {world : World} (kept : Kept world) {cell : Option Conn} {inflight : List Nat}
    {phase : LinkPhase} {conns : Nat}
    (filled : ∀ conn, cell = some conn → phase = .up conn ∨ phase = .ended conn)
    (fewer : ∀ id ∈ inflight, id ∈ world.inflight)
    (counted : ∀ conn, phase.Live conn → conn < conns)
    (live : ∀ id conn, id ∈ inflight → world.phase.Live conn → phase.Live conn)
    (clearing : ∀ id ∈ inflight, world.phase.Clearing → phase.Clearing) :
    Kept { world with cell := cell, inflight := inflight, phase := phase, conns := conns } := by
  constructor
  · exact filled
  · intro id member
    exact kept.known id (fewer id member)
  · exact kept.fresh
  · exact counted
  · intro id run found
    apply (kept.runs id run found).relink
    · exact fewer id
    · intro conn here
      exact live id conn here
    · exact clearing id

/-! ### The events -/

variable {write : Value → List UInt8} {world next : World}

theorem call_kept {spec : ProcSpec} (kept : Kept world)
    (stepped : step write world (.call spec) = some next) : Kept next := by
  cases stepped
  have unknown := kept.fresh world.nextId (Nat.le_refl _)
  have absent := kept.not_inflight unknown
  constructor
  · exact kept.cell
  · intro id member
    have differ : id ≠ world.nextId := by
      rintro rfl
      exact absent member
    rw [setRun_other _ _ differ]
    exact kept.known id member
  · intro id later
    have differ : id ≠ world.nextId := Nat.ne_of_gt later
    rw [setRun_other _ _ differ]
    exact kept.fresh id (Nat.le_of_succ_le later)
  · exact kept.counted
  · intro id run found
    by_cases same : id = world.nextId
    · subst same
      rw [setRun_self] at found
      cases found
      apply Run.Sound.idle
      · rfl
      · exact fun _ => absent
      · exact fun _ _ _ => rfl
      · intro reported
        cases reported
      · nofun
      · nofun
    · rw [setRun_other _ _ same] at found
      exact kept.runs id run found

theorem check_kept (kept : Kept world) (stepped : step write world (.check id) = some next) :
    Kept next := by
  simp only [step] at stepped
  split at stepped
  · next run found =>
      have sound := kept.runs id run found
      split at stepped
      · next created =>
          have absent := sound.absent (Or.inl created)
          have unsent := sound.unsent_early (by rw [created]; decide) (by rw [created]; decide)
            (by rw [created]; decide)
          have nothing : run.delivered = [] := by
            have shaped := sound.shaped
            rw [created] at shaped
            exact shaped
          split at stepped
          · cases stepped
            apply kept.setRun found
            apply Run.Sound.idle
            · exact ⟨[.spawned none], offline, by rw [nothing]; rfl, rfl, by
                intro event member
                rw [List.mem_singleton.1 member]
                rfl⟩
            · exact fun _ => absent
            · exact fun _ _ notDone => absurd rfl notDone
            · exact sound.reported_sent
            · nofun
            · nofun
          · cases stepped
            apply kept.setRun found
            apply Run.Sound.idle
            · exact nothing
            · exact fun _ => absent
            · exact fun _ _ _ => unsent
            · exact sound.reported_sent
            · nofun
            · nofun
      · cases stepped
  · cases stepped

theorem register_kept (kept : Kept world) (stepped : step write world (.register id) = some next) :
    Kept next := by
  simp only [step] at stepped
  split at stepped
  · next run found =>
      have sound := kept.runs id run found
      split at stepped
      · next checked =>
          cases stepped
          have unsent := sound.unsent_early (by rw [checked]; decide) (by rw [checked]; decide)
            (by rw [checked]; decide)
          have nothing : run.delivered = [] := by
            have shaped := sound.shaped
            rw [checked] at shaped
            exact shaped
          constructor
          · exact kept.cell
          · intro other member
            by_cases same : other = id
            · rw [same, setRun_self]
              rfl
            · rw [setRun_other _ _ same]
              exact kept.known other ((List.mem_cons.1 member).resolve_left same)
          · intro other later
            by_cases same : other = id
            · rw [same] at later
              rw [kept.fresh id later] at found
              cases found
            · rw [setRun_other _ _ same]
              exact kept.fresh other later
          · exact kept.counted
          · intro other run' found'
            by_cases same : other = id
            · subst same
              rw [setRun_self] at found'
              cases found'
              apply Run.Sound.idle
              · exact nothing
              · rintro (early | early | early) <;> cases early
              · exact fun _ _ _ => unsent
              · exact sound.reported_sent
              · nofun
              · nofun
            · rw [setRun_other _ _ same] at found'
              apply (kept.runs other run' found').relink
              · intro member
                exact (List.mem_cons.1 member).resolve_left same
              · exact fun _ _ here => here
              · exact fun _ here => here
      · cases stepped
  · cases stepped

theorem look_kept (kept : Kept world) (meets : Meets write world (.look id))
    (stepped : step write world (.look id) = some next) : Kept next := by
  simp only [step] at stepped
  split at stepped
  · next run found =>
      have sound := kept.runs id run found
      split at stepped
      · next registered =>
          have unsent := sound.unsent_early (by rw [registered]; decide)
            (by rw [registered]; decide) (by rw [registered]; decide)
          have unreported : run.reported = true → False :=
            fun reported => sound.reported_sent reported unsent
          have nothing : run.delivered = [] := by
            have shaped := sound.shaped
            rw [registered] at shaped
            exact shaped
          split at stepped
          · next empty =>
              cases stepped
              have gone := meets ⟨run, found, empty⟩
              apply kept.setRun found
              constructor
              · intro event member
                simp only at member
                rw [nothing] at member
                cases member
              · rintro (early | early | early) <;> cases early
              · exact fun notWaiting => absurd rfl notWaiting
              · exact sound.reported_sent
              · intro conn sending
                cases sending
              · intro conn _ sent
                simp only at sent
                rw [unsent] at sent
                cases sent
              · intro _ _ here
                rcases gone with absent | clearing
                · exact absurd here absent
                · exact clearing
              · intro _ reported
                exact (unreported reported).elim
          · next conn full =>
              cases stepped
              apply kept.setRun found
              constructor
              · exact nothing
              · rintro (early | early | early) <;> cases early
              · exact fun _ _ _ => unsent
              · exact sound.reported_sent
              · intro other sending _
                cases sending
                rcases kept.cell conn full with up | ended
                · exact Or.inl up
                · exact Or.inr (Or.inl ended)
              · intro conn waiting
                cases waiting
              · intro waiting
                cases waiting
              · intro waiting
                cases waiting
      · cases stepped
  · cases stepped

theorem send_kept (kept : Kept world) (meets : Meets write world (.send id))
    (stepped : step write world (.send id) = some next) : Kept next := by
  simp only [step] at stepped
  split at stepped
  · next run found =>
      have sound := kept.runs id run found
      split at stepped
      · next conn sending =>
          have unsent := sound.unsent_early (by rw [sending]; simp) (by rw [sending]; simp)
            (by rw [sending]; simp)
          have unreported : run.reported = true → False :=
            fun reported => sound.reported_sent reported unsent
          have nothing : run.delivered = [] := by
            have shaped := sound.shaped
            rw [sending] at shaped
            exact shaped
          have silent : ∀ event ∈ run.delivered, event.isExit = false := by
            rw [nothing]
            intro event member
            cases member
          split at stepped
          · next why refused =>
              cases stepped
              have gone := meets ⟨run, why, found, refused⟩
              apply kept.setRun found
              constructor
              · exact silent
              · rintro (early | early | early) <;> cases early
              · exact fun notWaiting => absurd rfl notWaiting
              · exact sound.reported_sent
              · intro other sending'
                cases sending'
              · intro other _ sent
                simp only at sent
                rw [unsent] at sent
                cases sent
              · intro _ _ here
                rcases gone with absent | clearing
                · exact absurd here absent
                · exact clearing
              · intro _ reported
                exact (unreported reported).elim
          · cases stepped
            apply kept.setRun found
            constructor
            · exact silent
            · rintro (early | early | early) <;> cases early
            · exact fun notWaiting => absurd rfl notWaiting
            · intro _ absent
              cases absent
            · intro other sending'
              cases sending'
            · intro other _ sent here
              cases sent
              exact sound.sending conn sending here
            · intro _ absent
              cases absent
            · intro _ reported
              exact (unreported reported).elim
      · cases stepped
  · cases stepped

theorem kill_kept (kept : Kept world) (stepped : step write world (.kill id) = some next) :
    Kept next := by
  simp only [step] at stepped
  split at stepped
  · next run found =>
      have sound := kept.runs id run found
      split at stepped
      · cases stepped
        apply kept.setRun found
        exact ⟨sound.shaped, sound.absent, sound.unsent_early, sound.reported_sent, sound.sending,
          sound.sent, sound.unsent, sound.reported⟩
      · cases stepped
  · cases stepped

/-- A turn of the loop keeps a run sound. -/
theorem receive_sound {run : Run} {phase : LinkPhase} [Decidable held]
    (sound : run.Sound phase held) (waiting : run.stage = .waiting)
    (received : run.receive (decide held) = some run') : run'.Sound phase held := by
  have silent : ∀ event ∈ run.delivered, event.isExit = false := by
    have shaped := sound.shaped
    rw [waiting] at shaped
    exact shaped
  unfold Run.receive at received
  split at received
  · next event rest queued =>
      cases received
      cases exits : event.isExit with
      | true =>
          simp only [if_true]
          apply Run.Sound.idle
          · exact ⟨run.delivered, event, rfl, exits, silent⟩
          · rintro (early | early | early) <;> cases early
          · exact fun _ notLeft => absurd rfl notLeft
          · exact sound.reported_sent
          · nofun
          · nofun
      | false =>
          simp only [Bool.false_eq_true, if_false]
          constructor
          · intro other member
            rcases List.mem_append.1 member with old | new
            · exact silent other old
            · rw [List.mem_singleton.1 new]
              exact exits
          · rintro (early | early | early) <;> cases early
          · exact fun notWaiting => absurd rfl notWaiting
          · exact sound.reported_sent
          · intro conn sending
            cases sending
          · intro conn _ sent here
            exact sound.sent conn waiting sent here
          · intro _ sent here
            exact sound.unsent waiting sent here
          · intro _ reported here
            rcases sound.reported waiting reported here with ⟨other, member, isExit⟩
            rw [queued] at member
            rcases List.mem_cons.1 member with rfl | later
            · rw [exits] at isExit
              cases isExit
            · exact ⟨other, later, isExit⟩
  · split at received
    · cases received
    · cases received
      apply Run.Sound.idle
      · exact ⟨run.delivered, hungUp, rfl, rfl, silent⟩
      · rintro (early | early | early) <;> cases early
      · exact fun _ notLeft => absurd rfl notLeft
      · exact sound.reported_sent
      · nofun
      · nofun

theorem recv_kept (kept : Kept world) (stepped : step write world (.recv id) = some next) :
    Kept next := by
  simp only [step] at stepped
  split at stepped
  · next run found =>
      split at stepped
      · next waiting =>
          split at stepped
          · next run' received =>
              cases stepped
              exact kept.setRun found (receive_sound (kept.runs id run found) waiting received)
          · cases stepped
      · cases stepped
  · cases stepped

theorem remove_kept (kept : Kept world) (stepped : step write world (.remove id) = some next) :
    Kept next := by
  simp only [step] at stepped
  split at stepped
  · next run found =>
      have sound := kept.runs id run found
      split at stepped
      · next left =>
          cases stepped
          have dropped : Kept { world with inflight := world.inflight.filter (· ≠ id) } := by
            apply kept.relink kept.cell _ kept.counted
            · exact fun _ _ _ here => here
            · exact fun _ _ here => here
            · intro other member
              exact (List.mem_filter.1 member).1
          apply dropped.setRun found
          have absent : id ∉ world.inflight.filter (· ≠ id) := by
            intro member
            have differ := (List.mem_filter.1 member).2
            simp at differ
          apply Run.Sound.idle
          · have shaped := sound.shaped
            rw [left] at shaped
            exact shaped
          · exact fun _ => absent
          · exact fun _ _ notDone => absurd rfl notDone
          · exact sound.reported_sent
          · nofun
          · nofun
      · cases stepped
  · cases stepped

theorem frame_kept {event : DaemonEvent} (kept : Kept world)
    (stepped : step write world (.frame id event) = some next) : Kept next := by
  simp only [step] at stepped
  split at stepped
  · next conn up =>
      cases stepped
      unfold World.forward
      split
      · next run found =>
          have sound := kept.runs id run found
          apply kept.setRun found
          constructor
          · exact sound.shaped
          · exact sound.absent
          · exact sound.unsent_early
          · intro reported
            simp only [Bool.or_eq_true, Bool.and_eq_true, beq_iff_eq] at reported
            rcases reported with old | ⟨-, sent⟩
            · exact sound.reported_sent old
            · simp only
              rw [sent]
              exact Option.some_ne_none conn
          · exact sound.sending
          · exact sound.sent
          · exact sound.unsent
          · intro waiting reported here
            simp only at waiting reported ⊢
            rw [if_pos here]
            simp only [Bool.or_eq_true, Bool.and_eq_true] at reported
            rcases reported with old | ⟨exits, -⟩
            · rcases sound.reported waiting old here with ⟨other, member, isExit⟩
              exact ⟨other, List.mem_append.2 (Or.inl member), isExit⟩
            · exact ⟨event, List.mem_append.2 (Or.inr (List.mem_cons_self ..)), exits⟩
      · exact kept
  · cases stepped

theorem publish_kept (kept : Kept world) (stepped : step write world .publish = some next) :
    Kept next := by
  simp only [step] at stepped
  split at stepped
  · next down =>
      cases stepped
      have dead : ∀ conn, ¬ world.phase.Live conn := by
        intro conn live
        rw [down] at live
        rcases live with same | same | same <;> cases same
      apply kept.relink
      · intro conn same
        cases same
        exact Or.inl rfl
      · exact fun _ member => member
      · rintro conn (same | same | same)
        · cases same
          exact Nat.lt_succ_self _
        · cases same
        · cases same
      · intro id conn _ live
        exact absurd live (dead conn)
      · rintro id _ ⟨conn, clearing⟩
        rw [down] at clearing
        cases clearing
  · next conn up =>
      cases stepped
      apply kept.relink
      · intro other same
        cases same
        exact Or.inl up
      · exact fun _ member => member
      · exact kept.counted
      · exact fun _ _ _ live => live
      · exact fun _ _ clearing => clearing
  · cases stepped

theorem demuxEnd_kept (kept : Kept world) (stepped : step write world .demuxEnd = some next) :
    Kept next := by
  simp only [step] at stepped
  split at stepped
  · next conn up =>
      cases stepped
      apply kept.relink
      · intro other full
        rcases kept.cell other full with same | same
        · rw [up] at same
          cases same
          exact Or.inr rfl
        · rw [up] at same
          cases same
      · intro id member
        cases member
      · rintro other (same | same | same)
        · cases same
        · cases same
          exact kept.counted conn (Or.inl up)
        · cases same
      · intro id _ member
        cases member
      · intro id member
        cases member
  · cases stepped

theorem cancel_kept (kept : Kept world) (stepped : step write world .cancel = some next) :
    Kept next := by
  simp only [step] at stepped
  split at stepped
  · next conn up =>
      cases stepped
      apply kept.relink
      · intro other full
        rcases kept.cell other full with same | same
        · rw [up] at same
          cases same
          exact Or.inr rfl
        · rw [up] at same
          cases same
      · exact fun _ member => member
      · rintro other (same | same | same)
        · cases same
        · cases same
          exact kept.counted conn (Or.inl up)
        · cases same
      · intro id other _ live
        rw [up] at live
        rcases live with same | same | same
        · cases same
          exact Or.inr (Or.inl rfl)
        · cases same
        · cases same
      · rintro id _ ⟨other, clearing⟩
        rw [up] at clearing
        cases clearing
  · cases stepped

theorem clearCells_kept (kept : Kept world) (stepped : step write world .clearCells = some next) :
    Kept next := by
  simp only [step] at stepped
  split at stepped
  · next conn ended =>
      cases stepped
      apply kept.relink
      · intro other full
        cases full
      · exact fun _ member => member
      · rintro other (same | same | same)
        · cases same
        · cases same
        · cases same
          exact kept.counted conn (Or.inr (Or.inl ended))
      · intro id other _ live
        rw [ended] at live
        rcases live with same | same | same
        · cases same
        · cases same
          exact Or.inr (Or.inr rfl)
        · cases same
      · intro id _ _
        exact ⟨conn, rfl⟩
  · cases stepped

theorem clearMap_kept (kept : Kept world) (stepped : step write world .clearMap = some next) :
    Kept next := by
  simp only [step] at stepped
  split at stepped
  · next conn clearing =>
      cases stepped
      apply kept.relink
      · intro other full
        rcases kept.cell other full with same | same
        · rw [clearing] at same
          cases same
        · rw [clearing] at same
          cases same
      · intro id member
        cases member
      · rintro other (same | same | same) <;> cases same
      · intro id _ member
        cases member
      · intro id member
        cases member
  · cases stepped

theorem step_kept (kept : Kept world) (meets : Meets write world event)
    (stepped : step write world event = some next) : Kept next := by
  cases event with
  | call spec => exact call_kept kept stepped
  | check id => exact check_kept kept stepped
  | register id => exact register_kept kept stepped
  | look id => exact look_kept kept meets stepped
  | send id => exact send_kept kept meets stepped
  | kill id => exact kill_kept kept stepped
  | recv id => exact recv_kept kept stepped
  | remove id => exact remove_kept kept stepped
  | publish => exact publish_kept kept stepped
  | frame id event => exact frame_kept kept stepped
  | demuxEnd => exact demuxEnd_kept kept stepped
  | cancel => exact cancel_kept kept stepped
  | clearCells => exact clearCells_kept kept stepped
  | clearMap => exact clearMap_kept kept stepped

theorem start_kept : Kept World.start := by
  constructor
  · intro conn full
    cases full
  · intro id member
    cases member
  · intro id _
    rfl
  · rintro conn (same | same | same) <;> cases same
  · intro id run found
    cases found

/-! ### Ends that are due -/

/-- The run must report its end: the daemon reported the exit on the connection the spawn was sent
on, that connection is over, or the notification was never sent. -/
def Due (world : World) (run : Run) : Prop :=
  run.reported = true ∨
    (∃ conn, run.sentOn = some conn ∧ conn < world.conns ∧ ¬ world.phase.Live conn) ∨
    (run.stage = .waiting ∧ run.sentOn = none ∧ ¬ world.phase.Clearing)

/-- Polls of the run alone, none of which blocks, lead to its exit. -/
def Ends (write : Value → List UInt8) (world : World) (id : Nat) : Prop :=
  ∃ polls world' run', run (step write) world (List.replicate polls (.recv id)) = some world' ∧
    world'.runs id = some run' ∧ ∃ event ∈ run'.delivered, event.isExit = true

/-- A run whose sender is gone, or whose channel holds an exit, ends by its own polls. -/
theorem waiting_ends {queue : List DaemonEvent} :
    ∀ {world : World} {run : Run}, world.runs id = some run → run.stage = .waiting →
      run.queue = queue → (id ∉ world.inflight ∨ ∃ event ∈ queue, event.isExit = true) →
      Ends write world id := by
  induction queue with
  | nil =>
      intro world run found waiting queued ready
      have absent : id ∉ world.inflight := by
        rcases ready with absent | ⟨event, member, -⟩
        · exact absent
        · cases member
      have stepped : step write world (.recv id) = some (world.setRun id
          { run with delivered := run.delivered ++ [hungUp], stage := .left }) := by
        simp [step, found, waiting, Run.receive, queued, absent]
      refine ⟨1, _, _, Bemtvi.Run.run_cons.2 ⟨_, stepped, rfl⟩, setRun_self _ _ _, hungUp, ?_, rfl⟩
      exact List.mem_append.2 (Or.inr (List.mem_cons_self ..))
  | cons event rest ih =>
      intro world run found waiting queued ready
      have stepped : step write world (.recv id) = some (world.setRun id
          { run with
            queue := rest
            delivered := run.delivered ++ [event]
            stage := if event.isExit then .left else .waiting }) := by
        simp [step, found, waiting, Run.receive, queued]
      by_cases exits : event.isExit = true
      · refine ⟨1, _, _, Bemtvi.Run.run_cons.2 ⟨_, stepped, rfl⟩, setRun_self _ _ _, event, ?_, exits⟩
        exact List.mem_append.2 (Or.inr (List.mem_cons_self ..))
      · have still : id ∉ world.inflight ∨ ∃ event ∈ rest, event.isExit = true := by
          rcases ready with absent | ⟨other, member, isExit⟩
          · exact Or.inl absent
          · rcases List.mem_cons.1 member with rfl | later
            · exact absurd isExit exits
            · exact Or.inr ⟨other, later, isExit⟩
        rw [if_neg exits] at stepped
        rcases ih (setRun_self world id { run with
            queue := rest
            delivered := run.delivered ++ [event]
            stage := .waiting }) rfl rfl still with
          ⟨polls, world', run', onwards, there, delivered⟩
        refine ⟨polls + 1, world', run', ?_, there, delivered⟩
        rw [List.replicate_succ]
        exact Bemtvi.Run.run_cons.2 ⟨_, stepped, onwards⟩

/-- **A run whose end is due ends.** -/
theorem due_ends {run : Run} (kept : Kept world) (found : world.runs id = some run)
    (due : Due world run) : Ends write world id := by
  have sound := kept.runs id run found
  have over_if_shaped : (∃ front last, run.delivered = front ++ [last] ∧ last.isExit = true ∧
      ∀ event ∈ front, event.isExit = false) → Ends write world id := by
    rintro ⟨front, last, whole, exits, -⟩
    refine ⟨0, world, run, rfl, found, last, ?_, exits⟩
    rw [whole]
    exact List.mem_append.2 (Or.inr (List.mem_cons_self ..))
  have not_yet : run.stage ≠ .waiting → run.stage ≠ .left → run.stage ≠ .done → False := by
    intro notWaiting notLeft notDone
    have unsent := sound.unsent_early notWaiting notLeft notDone
    rcases due with reported | ⟨conn, sent, -⟩ | ⟨waiting, -⟩
    · exact sound.reported_sent reported unsent
    · rw [unsent] at sent
      cases sent
    · exact notWaiting waiting
  cases stage : run.stage with
  | waiting =>
      apply waiting_ends found stage rfl
      by_cases held : id ∈ world.inflight
      · right
        rcases due with reported | ⟨conn, sent, -, dead⟩ | ⟨-, unsent, still⟩
        · exact sound.reported stage reported held
        · exact absurd (sound.sent conn stage sent held) dead
        · exact absurd (sound.unsent stage unsent held) still
      · exact Or.inl held
  | left =>
      have shaped := sound.shaped
      rw [stage] at shaped
      exact over_if_shaped shaped
  | done =>
      have shaped := sound.shaped
      rw [stage] at shaped
      exact over_if_shaped shaped
  | created => exact (not_yet (by simp [stage]) (by simp [stage]) (by simp [stage])).elim
  | checked => exact (not_yet (by simp [stage]) (by simp [stage]) (by simp [stage])).elim
  | registered => exact (not_yet (by simp [stage]) (by simp [stage]) (by simp [stage])).elim
  | sending conn => exact (not_yet (by simp [stage]) (by simp [stage]) (by simp [stage])).elim

/-! ### Whose reports a run gets -/

/-- What one event does to a run's channel and its deliveries. -/
inductive Moves (event : Event) (id : Nat) (run run' : Run) : Prop where
  | still (queue : run'.queue = run.queue) (delivered : run'.delivered = run.delivered)
  | heard (report : DaemonEvent) (addressed : event = .frame id report)
      (queue : run'.queue = run.queue ++ [report]) (delivered : run'.delivered = run.delivered)
  | took (report : DaemonEvent) (queue : run.queue = report :: run'.queue)
      (delivered : run'.delivered = run.delivered ++ [report])
  | madeUp (reports : List DaemonEvent)
      (own : ∀ report ∈ reports, report ∈ [.spawned none, offline, hungUp])
      (queue : run'.queue = run.queue) (delivered : run'.delivered = run.delivered ++ reports)

theorem runs_setRun (found : (world.setRun id new).runs other = some run') :
    (other = id ∧ run' = new) ∨ world.runs other = some run' := by
  by_cases same : other = id
  · subst same
    rw [setRun_self] at found
    cases found
    exact Or.inl ⟨rfl, rfl⟩
  · rw [setRun_other _ _ same] at found
    exact Or.inr found

/-- When one run moves, each run moves or stays. -/
theorem setRun_moves {old : Run} (found : world.runs id = some old)
    (found' : (world.setRun id new).runs other = some run') (moves : Moves event id old new) :
    ∃ run, world.runs other = some run ∧ Moves event other run run' := by
  rcases runs_setRun found' with ⟨rfl, rfl⟩ | there
  · exact ⟨old, found, moves⟩
  · exact ⟨run', there, .still rfl rfl⟩

theorem receive_moves {run : Run} {held : Bool} (received : run.receive held = some run') :
    Moves event id run run' := by
  unfold Run.receive at received
  split at received
  · next report rest queued =>
      cases received
      exact .took report queued rfl
  · split at received
    · cases received
    · cases received
      refine .madeUp [hungUp] ?_ rfl rfl
      intro report member
      rw [List.mem_singleton.1 member]
      exact List.mem_cons_of_mem _ (List.mem_cons_of_mem _ (List.mem_cons_self ..))

theorem step_moves (stepped : step write world event = some next)
    (found' : next.runs id = some run') :
    (∃ run, world.runs id = some run ∧ Moves event id run run') ∨
      (run'.queue = [] ∧ run'.delivered = []) := by
  cases event with
  | call spec =>
      cases stepped
      rcases runs_setRun found' with ⟨-, rfl⟩ | there
      · exact Or.inr ⟨rfl, rfl⟩
      · exact Or.inl ⟨run', there, .still rfl rfl⟩
  | check target =>
      simp only [step] at stepped
      split at stepped
      · next run found =>
          split at stepped
          · split at stepped
            · cases stepped
              left
              refine setRun_moves found found' (.madeUp [.spawned none, offline] ?_ rfl rfl)
              intro report member
              rcases List.mem_cons.1 member with rfl | later
              · exact List.mem_cons_self ..
              · rw [List.mem_singleton.1 later]
                exact List.mem_cons_of_mem _ (List.mem_cons_self ..)
            · cases stepped
              exact Or.inl (setRun_moves found found' (.still rfl rfl))
          · cases stepped
      · cases stepped
  | register target =>
      simp only [step] at stepped
      split at stepped
      · next run found =>
          split at stepped
          · cases stepped
            have found'' : world.runs target = some run := found
            rcases runs_setRun found' with ⟨rfl, rfl⟩ | there
            · exact Or.inl ⟨run, found'', .still rfl rfl⟩
            · exact Or.inl ⟨run', there, .still rfl rfl⟩
          · cases stepped
      · cases stepped
  | look target =>
      simp only [step] at stepped
      split at stepped
      · next run found =>
          split at stepped
          · split at stepped
            · cases stepped
              exact Or.inl (setRun_moves found found' (.still rfl rfl))
            · cases stepped
              exact Or.inl (setRun_moves found found' (.still rfl rfl))
          · cases stepped
      · cases stepped
  | send target =>
      simp only [step] at stepped
      split at stepped
      · next run found =>
          split at stepped
          · split at stepped
            · cases stepped
              exact Or.inl (setRun_moves found found' (.still rfl rfl))
            · cases stepped
              exact Or.inl (setRun_moves found found' (.still rfl rfl))
          · cases stepped
      · cases stepped
  | kill target =>
      simp only [step] at stepped
      split at stepped
      · next run found =>
          split at stepped
          · cases stepped
            exact Or.inl (setRun_moves found found' (.still rfl rfl))
          · cases stepped
      · cases stepped
  | recv target =>
      simp only [step] at stepped
      split at stepped
      · next run found =>
          split at stepped
          · split at stepped
            · next run'' received =>
                cases stepped
                exact Or.inl (setRun_moves found found' (receive_moves received))
            · cases stepped
          · cases stepped
      · cases stepped
  | remove target =>
      simp only [step] at stepped
      split at stepped
      · next run found =>
          split at stepped
          · cases stepped
            have found'' : world.runs target = some run := found
            rcases runs_setRun found' with ⟨rfl, rfl⟩ | there
            · exact Or.inl ⟨run, found'', .still rfl rfl⟩
            · exact Or.inl ⟨run', there, .still rfl rfl⟩
          · cases stepped
      · cases stepped
  | frame target report =>
      simp only [step] at stepped
      split at stepped
      · cases stepped
        left
        unfold World.forward at found'
        split at found'
        · next run found =>
            by_cases held : target ∈ world.inflight
            · exact setRun_moves found found' (.heard report rfl (if_pos held) rfl)
            · exact setRun_moves found found' (.still (if_neg held) rfl)
        · exact ⟨run', found', .still rfl rfl⟩
      · cases stepped
  | publish =>
      simp only [step] at stepped
      split at stepped
      · cases stepped
        exact Or.inl ⟨run', found', .still rfl rfl⟩
      · cases stepped
        exact Or.inl ⟨run', found', .still rfl rfl⟩
      · cases stepped
  | demuxEnd | cancel | clearCells | clearMap =>
      simp only [step] at stepped
      split at stepped
      · cases stepped
        exact Or.inl ⟨run', found', .still rfl rfl⟩
      · cases stepped

/-- Every report a run holds or delivered was addressed to it, or is one of the two made-up ends. -/
def Addressed (events : List Event) (world : World) : Prop :=
  ∀ id run, world.runs id = some run →
    (∀ report ∈ run.queue, Event.frame id report ∈ events) ∧
    ∀ report ∈ run.delivered,
      report ∈ [.spawned none, offline, hungUp] ∨ Event.frame id report ∈ events

theorem step_addressed {events : List Event} (addressed : Addressed events world)
    (stepped : step write world event = some next) : Addressed (events ++ [event]) next := by
  intro id run' found'
  have earlier : ∀ report, Event.frame id report ∈ events →
      Event.frame id report ∈ events ++ [event] :=
    fun report member => List.mem_append.2 (Or.inl member)
  rcases step_moves stepped found' with ⟨run, found, moves⟩ | ⟨noQueue, nothing⟩
  · rcases addressed id run found with ⟨queued, told⟩
    have told' : ∀ report ∈ run.delivered, report ∈ [.spawned none, offline, hungUp] ∨
        Event.frame id report ∈ events ++ [event] := by
      intro report member
      rcases told report member with own | sent
      · exact Or.inl own
      · exact Or.inr (earlier report sent)
    cases moves with
    | still queue delivered =>
        rw [queue, delivered]
        exact ⟨fun report member => earlier report (queued report member), told'⟩
    | heard report addressed queue delivered =>
        rw [queue, delivered]
        refine ⟨?_, told'⟩
        intro other member
        rcases List.mem_append.1 member with old | new
        · exact earlier other (queued other old)
        · rw [List.mem_singleton.1 new, addressed]
          exact List.mem_append.2 (Or.inr (List.mem_cons_self ..))
    | took report queue delivered =>
        rw [queue] at queued
        rw [delivered]
        constructor
        · intro other member
          exact earlier other (queued other (List.mem_cons_of_mem _ member))
        · intro other member
          rcases List.mem_append.1 member with old | new
          · exact told' other old
          · rw [List.mem_singleton.1 new]
            exact Or.inr (earlier report (queued report (List.mem_cons_self ..)))
    | madeUp reports own queue delivered =>
        rw [queue, delivered]
        refine ⟨fun report member => earlier report (queued report member), ?_⟩
        intro other member
        rcases List.mem_append.1 member with old | new
        · exact told' other old
        · exact Or.inl (own other new)
  · rw [noQueue, nothing]
    constructor
    · intro report member
      cases member
    · intro report member
      cases member

/-! ### Runs -/

/-- **Every process ends exactly once.**  In every run in which an unsent notification is not waited
for: a run's deliveries hold at most one exit, and nothing behind it; a run whose end is due
reports it by its own polls; every report a run gets was addressed to it or made up by it; and when
all runs are over the map is empty. -/
theorem proc_ends_once {events : List Event} {world : World}
    (along : Along (Meets write) (step write) .start events)
    (reached : run (step write) .start events = some world) :
    (∀ id run, world.runs id = some run →
      (∀ front event back, run.delivered = front ++ event :: back → event.isExit = true →
        back = [] ∧ ∀ other ∈ front, other.isExit = false) ∧
      (run.stage = .done → ∃ event ∈ run.delivered, event.isExit = true) ∧
      (Due world run → Ends write world id)) ∧
    Addressed events world ∧
    ((∀ id run, world.runs id = some run → run.stage = .done) → world.inflight = []) := by
  have kept : Kept world :=
    run_along Kept (fun _ _ _ kept meets stepped => step_kept kept meets stepped) start_kept along
      reached
  refine ⟨?_, ?_, ?_⟩
  · intro id run found
    have sound := kept.runs id run found
    refine ⟨?_, ?_, due_ends kept found⟩
    · intro front event back whole exits
      have silent_or_shaped : (∀ event ∈ run.delivered, event.isExit = false) ∨
          ∃ front last, run.delivered = front ++ [last] ∧ last.isExit = true ∧
            ∀ event ∈ front, event.isExit = false := by
        have shaped := sound.shaped
        cases stage : run.stage <;> rw [stage] at shaped
        case left => exact Or.inr shaped
        case done => exact Or.inr shaped
        case waiting => exact Or.inl shaped
        all_goals
          left
          intro event member
          have nothing : run.delivered = [] := shaped
          rw [nothing] at member
          cases member
      rcases silent_or_shaped with silent | ⟨front', last, whole', -, silent⟩
      · have member : event ∈ run.delivered := by
          rw [whole]
          exact List.mem_append.2 (Or.inr (List.mem_cons_self ..))
        rw [silent event member] at exits
        cases exits
      · rw [whole] at whole'
        rcases List.eq_nil_or_concat back with rfl | ⟨middle, last', rfl⟩
        · rcases List.append_inj' whole' rfl with ⟨rfl, -⟩
          exact ⟨rfl, silent⟩
        · rw [List.concat_eq_append, ← List.cons_append, ← List.append_assoc] at whole'
          rcases List.append_inj' whole' rfl with ⟨rfl, -⟩
          have member : event ∈ front ++ event :: middle :=
            List.mem_append.2 (Or.inr (List.mem_cons_self ..))
          rw [silent event member] at exits
          cases exits
    · intro done
      have shaped := sound.shaped
      rw [done] at shaped
      rcases shaped with ⟨front, last, whole, exits, -⟩
      exact ⟨last, by rw [whole]; exact List.mem_append.2 (Or.inr (List.mem_cons_self ..)), exits⟩
  · apply run_history Addressed _ _ reached
    · intro id run found
      cases found
    · intro events state event next _ addressed stepped
      exact step_addressed addressed stepped
  · intro allDone
    apply List.eq_nil_iff_forall_not_mem.2
    intro id member
    have known := kept.known id member
    rcases Option.isSome_iff_exists.1 known with ⟨run, found⟩
    exact (kept.runs id run found).absent (Or.inr (Or.inr (allDone id run found))) member

/-- A run of `ls`. -/
def listing : ProcSpec := ⟨["ls"], none, [], [], true⟩

/-- The bytes of the frame that spawns `listing` under id 1. -/
def listingFrame : List UInt8 :=
  [0x93, 0x02, 0xaa] ++ [112, 114, 111, 99, 95, 115, 112, 97, 119, 110] ++
    [0x96, 0x01, 0x91, 0xa2, 108, 115, 0xc0, 0x90, 0xc4, 0x00, 0xc3]

/-- A spawn that is sent and reported on. -/
def reportedRun : List Event :=
  [.publish, .call listing, .check 1, .register 1, .look 1, .send 1, .frame 1 (.spawned (some 7)),
    .frame 1 (.exited 0 [] []), .recv 1, .recv 1, .remove 1]

theorem proc_ends_once_reported : ∃ world,
    run (step fun _ => listingFrame) .start reportedRun = some world ∧ world.inflight = [] ∧
      ∃ run, world.runs 1 = some run ∧ ∃ event ∈ run.delivered, event.isExit = true := by
  have along : Along (Meets fun _ => listingFrame) (step fun _ => listingFrame) .start
      reportedRun := by
    refine ⟨False.elim, ?_⟩
    rintro next ⟨⟩
    refine ⟨False.elim, ?_⟩
    rintro next ⟨⟩
    refine ⟨False.elim, ?_⟩
    rintro next ⟨⟩
    refine ⟨False.elim, ?_⟩
    rintro next ⟨⟩
    refine ⟨?_, ?_⟩
    · rintro ⟨run, -, empty⟩
      cases empty
    rintro next ⟨⟩
    refine ⟨?_, ?_⟩
    · rintro ⟨run, why, same, refused⟩
      cases same
      cases refused
    rintro next ⟨⟩
    refine ⟨False.elim, ?_⟩
    rintro next ⟨⟩
    refine ⟨False.elim, ?_⟩
    rintro next ⟨⟩
    refine ⟨False.elim, ?_⟩
    rintro next ⟨⟩
    refine ⟨False.elim, ?_⟩
    rintro next ⟨⟩
    refine ⟨False.elim, ?_⟩
    rintro next ⟨⟩
    trivial
  cases reached : run (step fun _ => listingFrame) .start reportedRun with
  | none => cases reached
  | some world =>
      have ends := proc_ends_once along reached
      cases reached
      exact ⟨_, rfl, rfl, _, rfl, (ends.1 1 _ rfl).2.1 rfl⟩

/-- The whole teardown of a connection runs between a run's check and its registration. -/
def tornDown : List Event :=
  [.publish, .call listing, .check 1, .cancel, .clearCells, .clearMap, .register 1, .look 1]

/-- The notification is not sent, nothing will be heard, and the run waits: its sender stays in the
map. -/
theorem unsent_spawn_waits : ∃ world run',
    run (step fun _ => listingFrame) .start tornDown = some world ∧ world.phase = .down ∧
      world.runs 1 = some run' ∧ Due world run' ∧ run'.delivered = [] ∧
      step (fun _ => listingFrame) world (.recv 1) = none ∧
      ¬ Ends (fun _ => listingFrame) world 1 := by
  refine ⟨_, _, rfl, rfl, rfl, ?_, rfl, rfl, ?_⟩
  · right
    right
    refine ⟨rfl, rfl, ?_⟩
    rintro ⟨conn, ⟨⟩⟩
  · rintro ⟨polls, world', run', reached, found, event, member, -⟩
    cases polls with
    | zero =>
        cases reached
        cases found
        cases member
    | succ polls => cases reached

end Bemtvi.Daemon.Proc
