/-
Module: Bemtvi.Lsp.FileOpsAnswers
Purpose: When a server that asked for a workspace edit is answered: the count its record keeps is the
  number of its operations that are queued or in flight, so the answer goes out once, when none is
  left, and says what happened.  For sessions whose files are at hand: elsewhere a late probe of a
  `create` queues an operation that no record counts.
Trusted boundary: none
Main exports: EditHost.openOf, AnswerOk, Ledger, apply_edit_answered_once
-/
import Bemtvi.Lsp.FileOpsLaws

namespace Bemtvi.Lsp.FileOps

open Run (Lawful lawful_nil lawful_concat)

variable {due : Option Nat} {host : EditHost}

/-! ### Open operations -/

/-- An operation of a group's is in the table. -/
def ofGroup (jobs : Nat → Option WorkspaceFsJob) (group id : Nat) : Bool :=
  (jobs id).any fun entry => entry.group = group

variable {id index other : Nat} {jobs : Nat → Option WorkspaceFsJob} {entry : WorkspaceFsJob}
  {job : FsJob} {op : WorkspaceFsOp} {later : List Mark} {next : EditHost} {session : Session}
  {edit : WorkspaceEditData}

theorem ofGroup_iff {group : Nat} :
    ofGroup jobs group id = true ↔ ∃ entry, jobs id = some entry ∧ entry.group = group := by
  rw [ofGroup]
  cases jobs id <;> simp

theorem ofGroup_some {group : Nat} (held : jobs id = some entry) :
    ofGroup jobs group id = decide (entry.group = group) := by
  rw [ofGroup, held, Option.any_some]

/-- How many operations of a group are queued or in flight. -/
def EditHost.openOf (host : EditHost) (group : Nat) : Nat :=
  (host.fsInflight.toList ++ host.fsQueue).countP (ofGroup host.fsJobs group)

theorem Base.openOf_eq_zero (base : Base due host) {group : Nat} : host.openOf group = 0 ↔
    ∀ id entry, host.fsJobs id = some entry → entry.group ≠ group := by
  rw [EditHost.openOf, List.countP_eq_zero]
  constructor
  · intro none_open id entry held same
    refine none_open id ?_ (ofGroup_iff.2 ⟨entry, held, same⟩)
    rcases base.held id entry held with waits | flies
    · exact List.mem_append_right _ waits
    · exact List.mem_append_left _ (by rw [flies]; exact List.mem_singleton_self _)
  · intro others id _ open_
    obtain ⟨entry, held, same⟩ := ofGroup_iff.1 open_
    exact others id entry held same

/-- Every operation a group has queued is over. -/
theorem Base.all_over (base : Base due host) {group : Nat} (none_open : host.openOf group = 0)
    (queued : Mark.queued id group index ∈ host.log) :
    (∃ group' chained, Mark.landed id group' chained ∈ host.log) ∨
      Mark.troubled group ∈ host.log := by
  have others := base.openOf_eq_zero.1 none_open
  rcases base.accounted id group index queued with waits | begun | troubled
  · obtain ⟨entry, job, held, -⟩ := base.waiting id waits
    exact absurd (base.unique id _ _ _ _ (base.noted id entry held) queued) (others id entry held)
  · rcases base.settled id begun with flies | landed
    · obtain ⟨entry, job, held, -⟩ := base.flying id flies
      exact absurd (base.unique id _ _ _ _ (base.noted id entry held) queued) (others id entry held)
    · exact Or.inl landed
  · exact Or.inr troubled

theorem openOf_queue {group : Nat} (base : Base none host) :
    (host.queueFsJob group index job op).openOf other =
      host.openOf other + if group = other then 1 else 0 := by
  have old : ∀ id ∈ host.fsInflight.toList ++ host.fsQueue, id ≠ host.nextFsId := by
    rintro id member rfl
    have held : ∃ entry, host.fsJobs host.nextFsId = some entry := by
      rcases List.mem_append.1 member with flies | waits
      · obtain ⟨entry, job, held, -⟩ := base.flying _ (Option.mem_toList.1 flies)
        exact ⟨entry, held⟩
      · obtain ⟨entry, job, held, -⟩ := base.waiting _ waits
        exact ⟨entry, held⟩
    obtain ⟨entry, held⟩ := held
    rw [base.no_job] at held
    cases held
  simp only [EditHost.openOf, EditHost.queueFsJob, EditHost.note]
  rw [← List.append_assoc, List.countP_append, List.countP_singleton]
  congr 1
  · apply List.countP_congr
    intro id member
    rw [ofGroup, ofGroup, Function.update_of_ne (old id member)]
  · rw [ofGroup, Function.update_self]
    simp

theorem openOf_start {rest : List Nat} (idle : host.fsInflight = none)
    (line : host.fsQueue = id :: rest) (held : host.fsJobs id = some entry) :
    (host.start id entry job rest).openOf other = host.openOf other := by
  rw [EditHost.openOf, EditHost.openOf, idle, line]
  simp only [EditHost.start, EditHost.note]
  apply List.countP_congr
  intro id' _
  by_cases same : id' = id
  · rw [same, ofGroup, ofGroup, Function.update_self, held]
    rfl
  · rw [ofGroup, ofGroup, Function.update_of_ne same]

theorem openOf_pump (base : Base due host) : host.pump.openOf other = host.openOf other := by
  rcases base.pump_cases with ⟨same, -⟩ | ⟨id, rest, entry, job, idle, line, held, same⟩
  · rw [same]
  · rw [same]
    exact openOf_start idle line held

theorem openOf_abandon {group : Nat}
    (landed : ∀ id entry, host.fsInflight = some id → host.fsJobs id = some entry →
      entry.group ≠ group) (other : Nat) :
    ((host.dropGroup group).note (.troubled group)).openOf other =
      if group = other then 0 else host.openOf other := by
  change (host.fsInflight.toList ++ (host.dropGroup group).fsQueue).countP
    (ofGroup (host.dropGroup group).fsJobs other) = _
  split
  · next same =>
      rw [← same, List.countP_eq_zero]
      intro id member open_
      obtain ⟨entry, held, same⟩ := ofGroup_iff.1 open_
      obtain ⟨held, kept⟩ := dropGroup_jobs.1 held
      rcases List.mem_append.1 member with flies | waits
      · exact landed id entry (Option.mem_toList.1 flies) held same
      · exact kept (mem_dropGroup.1 waits).1 same
  · next ne =>
      have jobs : ∀ id, ofGroup (host.dropGroup group).fsJobs other id = true ↔
          ofGroup host.fsJobs other id = true := by
        intro id
        rw [ofGroup_iff, ofGroup_iff]
        constructor
        · rintro ⟨entry, held, same⟩
          exact ⟨entry, (dropGroup_jobs.1 held).1, same⟩
        · rintro ⟨entry, held, rfl⟩
          exact ⟨entry, dropGroup_jobs.2 ⟨held, fun _ same => ne same.symm⟩, rfl⟩
      rw [EditHost.openOf, List.countP_append, List.countP_append]
      congr 1
      · exact List.countP_congr fun id _ => jobs id
      · rw [EditHost.dropGroup, List.countP_filter]
        apply List.countP_congr
        intro id member
        rw [Bool.and_eq_true, decide_eq_true_eq, mem_queuedOf]
        constructor
        · rintro ⟨open_, -⟩
          exact (jobs id).1 open_
        · intro open_
          refine ⟨(jobs id).2 open_, ?_⟩
          rintro ⟨-, entry, held, same⟩
          obtain ⟨entry', held', same'⟩ := ofGroup_iff.1 open_
          rw [held] at held'
          cases held'
          exact ne (same.symm.trans same')

theorem openOf_taken (base : Base none host) (flight : host.fsInflight = some id)
    (held : host.fsJobs id = some entry) (other : Nat) :
    (host.taken id entry.group none).openOf other + (if entry.group = other then 1 else 0) =
      host.openOf other := by
  rw [taken_eq flight, EditHost.openOf, EditHost.openOf, flight]
  simp only [Option.toList_none, List.nil_append, Option.toList_some, List.singleton_append,
    List.countP_cons, ofGroup_some held, decide_eq_true_eq]
  congr 1
  apply List.countP_congr
  intro waits member
  rw [ofGroup, ofGroup, Function.update_of_ne (base.aground flight member)]

theorem openOf_chain (base : Base none host) (flight : host.fsInflight = some id)
    (held : host.fsJobs id = some entry) (job : FsJob) (op : WorkspaceFsOp) (other : Nat) :
    (host.chain id entry job op).openOf other = host.openOf other := by
  rw [chain_eq flight, EditHost.openOf, EditHost.openOf, flight]
  simp only [Option.toList_none, List.nil_append, Option.toList_some, List.singleton_append,
    List.countP_cons, ofGroup_some held]
  rw [ofGroup, Function.update_self]
  congr 1
  apply List.countP_congr
  intro waits member
  rw [ofGroup, ofGroup, Function.update_of_ne (Nat.ne_of_lt (base.queue_lt member)),
    Function.update_of_ne (base.aground flight member)]

/-! ### The ledger -/

/-- No request of a group has been answered. -/
def Unanswered (log : List Mark) (group : Nat) : Prop :=
  ∀ request outcome, Mark.answered group request outcome ∉ log

/-- What a mark says of the answers before it; an answer tells whether there was trouble, and every
operation queued for its edit is over. -/
def AnswerOk (before : List Mark) : Mark → Prop
  | .answered group _ outcome => Unanswered before group ∧
      (∀ id index, Mark.queued id group index ∈ before →
        (∃ group' chained, Mark.landed id group' chained ∈ before) ∨
          Mark.troubled group ∈ before) ∧
      (outcome.applied = true ↔ Mark.troubled group ∉ before)
  | .queued _ group _ => Unanswered before group
  | .started _ group _ _ => Unanswered before group
  | .troubled group => Unanswered before group
  | .landed _ _ _ => True

/-- What a request's record says of its group. -/
structure Exact (host : EditHost) (group : Nat) (pending : PendingApplyEdit) : Prop where
  counted : pending.outstanding = host.openOf group
  honest : pending.trouble = [] ↔ Mark.troubled group ∉ host.log
  parked : pending.awaitingConfirm = true → ∃ edit, host.confirmEdits group = some edit

/-- What the records of the requests say, but for a group that is being gone through. -/
structure Ledger (loose : Option Nat) (host : EditHost) : Prop where
  noProbes : ∀ buffer, host.createWrites buffer = none
  exact_ : ∀ group pending, some group ≠ loose → host.applyEdits group = some pending →
    Exact host group pending ∧ (pending.awaitingConfirm = true ∨ 0 < pending.outstanding)
  closed : ∀ group, ¬ Unanswered host.log group →
    host.applyEdits group = none ∧ host.confirmEdits group = none ∧ host.openOf group = 0
  answers : Lawful AnswerOk host.log

theorem unanswered_append {log : List Mark} {group : Nat} :
    Unanswered (log ++ later) group ↔ Unanswered log group ∧ Unanswered later group := by
  simp only [Unanswered, List.mem_append, not_or, forall_and]

variable {loose : Option Nat}

theorem Ledger.loosen (ledger : Ledger none host) (loose : Option Nat) : Ledger loose host :=
  { ledger with exact_ := fun group pending _ held =>
      ledger.exact_ group pending (fun same => by cases same) held }

/-- A group without a request has no record to be wrong. -/
theorem Ledger.tighten {group : Nat} (ledger : Ledger (some group) host)
    (nobody : host.applyEdits group = none) : Ledger none host := by
  refine { ledger with exact_ := ?_ }
  intro other pending _ held
  refine ledger.exact_ other pending ?_ held
  intro same
  cases same
  rw [nobody] at held
  cases held

/-- A step that answers nothing, and that troubles and counts at most the loose group. -/
theorem Ledger.grow (ledger : Ledger loose host) (applies : next.applyEdits = host.applyEdits)
    (confirms : next.confirmEdits = host.confirmEdits)
    (probes : ∀ buffer, next.createWrites buffer = none) (log : next.log = host.log ++ later)
    (counts : ∀ group, some group ≠ loose → next.openOf group = host.openOf group)
    (calm : ∀ group, some group ≠ loose → Mark.troubled group ∉ later)
    (silent : ∀ group, Unanswered later group)
    (pending : ∀ group, some group = loose → Unanswered host.log group)
    (allowed : ∀ before mark after, later = before ++ mark :: after →
      AnswerOk (host.log ++ before) mark) : Ledger loose next := by
  refine ⟨probes, ?_, ?_, ?_⟩
  · intro group record tight held
    rw [applies] at held
    obtain ⟨⟨counted, honest, parked⟩, waits⟩ := ledger.exact_ group record tight held
    refine ⟨⟨?_, ?_, ?_⟩, waits⟩
    · rw [counts group tight]
      exact counted
    · rw [honest, log, List.mem_append, not_or]
      exact (and_iff_left (calm group tight)).symm
    · rw [confirms]
      exact parked
  · intro group answered
    rw [log, unanswered_append, and_iff_left (silent group)] at answered
    have tight : some group ≠ loose := fun same => answered (pending group same)
    rw [applies, confirms, counts group tight]
    exact ledger.closed group answered
  · rw [log]
    exact Run.lawful_append ledger.answers allowed

theorem allowed_single {before : List Mark} {mark : Mark} (ok : AnswerOk before mark) :
    ∀ front mark' back, [mark] = front ++ mark' :: back → AnswerOk (before ++ front) mark' := by
  intro front mark' back whole
  rcases List.singleton_eq_append_iff.1 whole with ⟨rfl, same⟩ | ⟨-, none_left⟩
  · cases same
    rw [List.append_nil]
    exact ok
  · cases none_left

/-- A group with an operation of its own has not been answered. -/
theorem Ledger.unanswered (ledger : Ledger loose host) (base : Base due host)
    (held : host.fsJobs id = some entry) : Unanswered host.log entry.group := by
  by_contra answered
  obtain ⟨-, -, none_open⟩ := ledger.closed _ answered
  exact base.openOf_eq_zero.1 none_open id entry held rfl

theorem Ledger.queue {group : Nat} (ledger : Ledger (some group) host) (base : Base none host)
    (pending : Unanswered host.log group) :
    Ledger (some group) (host.queueFsJob group index job op) := by
  refine ledger.grow rfl rfl ledger.noProbes rfl ?_ (by simp) (by simp [Unanswered]) ?_
    (allowed_single pending)
  · intro other tight
    rw [openOf_queue base, if_neg (fun same => tight (congrArg some same.symm)), Nat.add_zero]
  · intro other same
    cases same
    exact pending

theorem Ledger.pump (ledger : Ledger loose host) (base : Base due host)
    (pending : ∀ group, some group = loose → Unanswered host.log group) :
    Ledger loose host.pump := by
  rcases base.pump_cases with ⟨same, -⟩ | ⟨id, rest, entry, job, idle, line, held, same⟩
  · rw [same]
    exact ledger
  · rw [same]
    refine ledger.grow rfl rfl ledger.noProbes rfl ?_ (by simp) (by simp [Unanswered]) pending
      (allowed_single (ledger.unanswered base held))
    intro group _
    exact openOf_start idle line held

theorem Ledger.abandon {group : Nat} (ledger : Ledger (some group) host)
    (pending : Unanswered host.log group)
    (landed : ∀ id entry, host.fsInflight = some id → host.fsJobs id = some entry →
      entry.group ≠ group) :
    Ledger (some group) ((host.dropGroup group).note (.troubled group)) := by
  refine ledger.grow rfl rfl ?_ rfl ?_ ?_ (by simp [Unanswered]) ?_ (allowed_single pending)
  · intro buffer
    simp [EditHost.dropGroup, EditHost.note, ledger.noProbes buffer]
  · intro other tight
    rw [openOf_abandon landed, if_neg (fun same => tight (congrArg some same.symm))]
  · intro other tight
    rw [List.mem_singleton]
    intro same
    cases same
    exact tight rfl
  · intro other same
    cases same
    exact pending

theorem Ledger.taken (ledger : Ledger none host) (base : Base none host)
    (flight : host.fsInflight = some id) (held : host.fsJobs id = some entry) :
    Ledger (some entry.group) (host.taken id entry.group none) := by
  refine (ledger.loosen (some entry.group)).grow rfl rfl ledger.noProbes rfl ?_ (by simp)
    (by simp [Unanswered]) ?_ (allowed_single trivial)
  · intro other tight
    rw [← openOf_taken base flight held, if_neg (fun same => tight (congrArg some same.symm)),
      Nat.add_zero]
  · intro other same
    cases same
    exact ledger.unanswered base held

theorem Ledger.chain (ledger : Ledger none host) (base : Base none host)
    (flight : host.fsInflight = some id) (held : host.fsJobs id = some entry) :
    Ledger (some entry.group) (host.chain id entry job op) := by
  have pending := ledger.unanswered base held
  have marked : Ledger (some entry.group)
      (host.note (.landed id entry.group (some host.nextFsId))) := by
    refine (ledger.loosen (some entry.group)).grow rfl rfl ledger.noProbes rfl
      (fun _ _ => rfl) (by simp) (by simp [Unanswered]) ?_ (allowed_single trivial)
    intro other same
    cases same
    exact pending
  have unanswered : Unanswered (host.note (.landed id entry.group (some host.nextFsId))).log
      entry.group := by
    rw [EditHost.note, unanswered_append]
    exact ⟨pending, by simp [Unanswered]⟩
  have log : (host.chain id entry job op).log =
      (host.note (.landed id entry.group (some host.nextFsId))).log ++
        [.queued host.nextFsId entry.group entry.index] := by
    rw [chain_eq flight, EditHost.note, List.append_assoc]
    rfl
  refine marked.grow rfl rfl ledger.noProbes log ?_ (by simp) (by simp [Unanswered]) ?_
    (allowed_single unanswered)
  · intro other _
    exact openOf_chain base flight held job op other
  · intro other same
    cases same
    exact unanswered

/-! ### Answers -/

/-- A record that is exact is kept, or answered. -/
theorem Ledger.answer {group : Nat} {pending : PendingApplyEdit} (ledger : Ledger (some group) host)
    (base : Base due host) (unanswered : Unanswered host.log group)
    (exactly : Exact host group pending)
    (decided : pending.awaitingConfirm = false → host.confirmEdits group = none) :
    Ledger none (EditHost.settle { host with
      applyEdits := Function.update host.applyEdits group (some pending) } group) := by
  have others : ∀ other record, Function.update host.applyEdits group (some pending) other =
      some record → other ≠ group → host.applyEdits other = some record := by
    intro other record held ne
    rwa [Function.update_of_ne ne] at held
  simp only [EditHost.settle, Function.update_self]
  split
  · next waits =>
      have waits : pending.awaitingConfirm = true ∨ 0 < pending.outstanding := by
        simpa using waits
      refine { ledger with exact_ := ?_, closed := ?_ }
      · intro other record _ held
        by_cases same : other = group
        · simp only [same, Function.update_self, Option.some.injEq] at held
          cases held
          rw [same]
          exact ⟨⟨exactly.counted, exactly.honest, exactly.parked⟩, waits⟩
        · obtain ⟨⟨counted, honest, parked⟩, waits⟩ := ledger.exact_ other record
            (fun loose => same (Option.some.inj loose)) (others other record held same)
          exact ⟨⟨counted, honest, parked⟩, waits⟩
      · intro other answered
        have ne : other ≠ group := by
          rintro rfl
          exact answered unanswered
        simp only [Function.update_of_ne ne]
        exact ledger.closed other answered
  · next idle =>
      simp only [Bool.or_eq_true, decide_eq_true_eq, not_or, Nat.not_lt, Nat.le_zero,
        Bool.not_eq_true] at idle
      obtain ⟨answered, nothing⟩ := idle
      have none_open : host.openOf group = 0 := exactly.counted ▸ nothing
      refine ⟨ledger.noProbes, ?_, ?_, ?_⟩
      · intro other record _ held
        by_cases same : other = group
        · simp [EditHost.note, same] at held
        · simp only [EditHost.note, Function.update_of_ne same] at held
          obtain ⟨⟨counted, honest, parked⟩, waits⟩ := ledger.exact_ other record
            (fun loose => same (Option.some.inj loose)) held
          refine ⟨⟨counted, ?_, parked⟩, waits⟩
          simpa [EditHost.note] using honest
      · intro other answered'
        by_cases same : other = group
        · rw [same]
          exact ⟨by simp [EditHost.note], decided answered, none_open⟩
        · simp only [EditHost.note, Function.update_of_ne same]
          refine ledger.closed other ?_
          intro still
          apply answered'
          rw [EditHost.note, unanswered_append]
          refine ⟨still, ?_⟩
          intro request outcome member
          cases List.mem_singleton.1 member
          exact same rfl
      · refine lawful_concat.2 ⟨ledger.answers, unanswered, ?_, ?_⟩
        · intro id index queued
          exact base.all_over none_open queued
        · rw [← exactly.honest]
          simp only [EditHost.outcome]
          cases trouble : pending.trouble with
          | nil => simp
          | cons first rest => cases label : pending.request.label <;> simp

/-- A group's record is changed into one that is exact, and settled. -/
theorem Ledger.tell {group : Nat} {change : PendingApplyEdit → PendingApplyEdit}
    (ledger : Ledger (some group) host) (base : Base due host)
    (exactly : ∀ pending, host.applyEdits group = some pending → Exact host group (change pending))
    (decided : ∀ pending, host.applyEdits group = some pending →
      (change pending).awaitingConfirm = false → host.confirmEdits group = none) :
    Ledger none ((host.record group change).settle group) := by
  cases held : host.applyEdits group with
  | none =>
      have same : host.record group change = host := by
        rw [EditHost.record, held, Option.map_none, ← held, Function.update_eq_self]
      rw [same, EditHost.settle, held]
      exact ledger.tighten held
  | some pending =>
      rw [EditHost.record, held, Option.map_some]
      refine ledger.answer base ?_ (exactly pending held) (decided pending held)
      by_contra answered
      rw [(ledger.closed group answered).1] at held
      cases held

/-! ### Going through an edit -/

/-- What a loop over the changes of a group keeps of the ledger. -/
structure Gathering (group : Nat) (start : EditHost) (loop : Loop) : Prop where
  growing : Growing group loop
  ledger : Ledger (some group) loop.host
  unanswered : Unanswered loop.host.log group
  counted : loop.queued = loop.host.openOf group
  applies : loop.host.applyEdits = start.applyEdits

variable {group : Nat} {start : EditHost} {loop : Loop}

theorem Gathering.queue (gathering : Gathering group start loop) :
    Gathering group start (loop.queueFsJob group index job op) := by
  refine ⟨gathering.growing.queue,
    gathering.ledger.queue gathering.growing.base gathering.unanswered, ?_, ?_, gathering.applies⟩
  · rw [Loop.queueFsJob, EditHost.queueFsJob, EditHost.note, unanswered_append]
    exact ⟨gathering.unanswered, by simp [Unanswered]⟩
  · simp only [Loop.queueFsJob]
    rw [openOf_queue gathering.growing.base, if_pos rfl, gathering.counted]

theorem Gathering.created {buffer : Nat} {path : String} (gathering : Gathering group start loop) :
    Gathering group start (loop.queueCreatedFileWrite session group index buffer path) := by
  have queued : Gathering group start (loop.queueFsJob group index
      (createdFileJob session buffer path).1 (createdFileJob session buffer path).2) :=
    gathering.queue
  exact ⟨⟨queued.growing.base, queued.growing.opens⟩, queued.ledger, queued.unanswered,
    queued.counted, queued.applies⟩

/-- Files at hand need no probe. -/
theorem spared_local : (loop.spared false session group index).1 = loop := by
  rw [Loop.spared]
  split <;> rfl

theorem Gathering.take {loop' : Loop} {change : WorkspaceChange}
    (gathering : Gathering group start loop)
    (taken : loop.take false session group index change = .ok loop') :
    Gathering group start loop' := by
  cases change with
  | edits uri edits annotation =>
      rw [Loop.take] at taken
      split at taken
      · cases taken
        exact gathering
      · split at taken
        · cases taken
        · cases taken
          exact gathering
  | create uri overwrite ignoreIfExists annotation =>
      rw [Loop.take] at taken
      split at taken
      · cases taken
      · split at taken
        · cases taken
          exact gathering.queue
        · split at taken
          · have same : (loop.spared false session group index).1 = loop := spared_local
            split at taken
            · next found =>
                rw [found] at same
                cases taken
                cases same
                exact gathering.created
            · next found =>
                rw [found] at same
                split at taken
                · cases taken
                  cases same
                  exact gathering.created
                · cases taken
                  cases same
                  exact gathering
          · cases taken
            exact gathering.created
  | rename oldUri newUri overwrite ignoreIfExists annotation =>
      rw [Loop.take] at taken
      split at taken
      · split at taken
        · cases taken
          exact gathering.queue
        · cases taken
          exact gathering.queue
      · cases taken
  | delete uri recursive ignoreIfNotExists annotation =>
      rw [Loop.take] at taken
      split at taken
      · cases taken
      · cases taken
        exact gathering.queue

theorem Gathering.takeAll (gathering : Gathering group start loop)
    (changes : List (Nat × WorkspaceChange)) :
    Gathering group start (loop.takeAll false session group changes).1 := by
  induction changes generalizing loop with
  | nil => exact gathering
  | cons change changes ih =>
      rw [Loop.takeAll]
      split
      · next taken => exact ih (gathering.take taken)
      · exact gathering

/-- What an edit's application reports is what its group has open. -/
structure Tallied (group : Nat) (start : EditHost) (result : EditHost × AppliedEdit) : Prop where
  ledger : Ledger (some group) result.1
  unanswered : Unanswered result.1.log group
  counted : result.2.pending = result.1.openOf group
  honest : result.2.outcome.failureReason = none ↔ Mark.troubled group ∉ result.1.log
  applies : result.1.applyEdits = start.applyEdits

theorem pump_log (base : Base due host) : (∀ group, Unanswered host.pump.log group ↔
      Unanswered host.log group) ∧
    (∀ group, Mark.troubled group ∈ host.pump.log ↔ Mark.troubled group ∈ host.log) ∧
    host.pump.applyEdits = host.applyEdits := by
  rcases base.pump_cases with ⟨same, -⟩ | ⟨id, rest, entry, job, idle, line, held, same⟩
  · rw [same]
    exact ⟨fun _ => Iff.rfl, fun _ => Iff.rfl, rfl⟩
  · rw [same]
    refine ⟨?_, ?_, rfl⟩
    · intro group
      rw [EditHost.start, EditHost.note, unanswered_append, and_iff_left (by simp [Unanswered])]
    · intro group
      simp [EditHost.start, EditHost.note]

theorem Ledger.applyChanges {changes : List (Nat × WorkspaceChange)}
    (ledger : Ledger (some group) host) (kept : Kept host) (opens : Opens host group)
    (unanswered : Unanswered host.log group) (none_open : host.openOf group = 0) :
    Tallied group host (host.applyChanges false session group changes) := by
  have first : Gathering group host ⟨host, 0, []⟩ :=
    ⟨⟨kept.base, opens⟩, ledger, unanswered, none_open.symm, rfl⟩
  have gathered : Gathering group host
      (Loop.takeAll false session group ⟨host, 0, []⟩ changes).1 := first.takeAll changes
  rw [EditHost.applyChanges]
  split
  · next loop index reason gone =>
      rw [gone] at gathered
      have aground := gathered.growing.opens.aground
      refine ⟨gathered.ledger.abandon gathered.unanswered aground, ?_, ?_, ?_, gathered.applies⟩
      · change Unanswered (loop.host.log ++ [Mark.troubled group]) group
        rw [unanswered_append]
        exact ⟨gathered.unanswered, by simp [Unanswered]⟩
      · rw [openOf_abandon aground, if_pos rfl]
      · constructor
        · intro same
          cases same
        · intro calm
          exact absurd (List.mem_append_right _ (List.mem_singleton_self _)) calm
  · next loop gone =>
      rw [gone] at gathered
      have base := gathered.growing.base
      obtain ⟨answers, troubles, applies⟩ := pump_log base
      refine ⟨?_, (answers group).2 gathered.unanswered, ?_, ?_, applies.trans gathered.applies⟩
      · refine gathered.ledger.pump base ?_
        intro other same
        cases same
        exact gathered.unanswered
      · rw [openOf_pump base]
        exact gathered.counted
      · rw [troubles]
        exact ⟨fun _ => gathered.growing.opens.calm, fun _ => rfl⟩

/-- The user's answer to a parked edit, before it is told. -/
theorem Ledger.decision (session : Session) (accepted : List String) (ledger : Ledger none host)
    (kept : Kept host) (parked : host.confirmEdits group = some edit) :
    ∃ result : EditHost × AppliedEdit, Applied group result ∧ Tallied group host result ∧
      host.onDecision false session group accepted =
        ((result.1.record group fun pending =>
          { pending with
            awaitingConfirm := false
            outstanding := pending.outstanding + result.2.pending
            trouble := pending.trouble ++ result.2.outcome.failureReason.toList
            failedChange := pending.failedChange.or result.2.outcome.failedChange }).settle group,
          result.2) := by
  obtain ⟨released, opens, others, probes⟩ := kept.release parked
  have unanswered : Unanswered host.log group := by
    by_contra answered
    rw [(ledger.closed group answered).2.1] at parked
    cases parked
  have none_open : host.openOf group = 0 := kept.base.openOf_eq_zero.2 others
  have loosened : Ledger (some group)
      { host with confirmEdits := Function.update host.confirmEdits group none } := by
    refine { ledger.loosen (some group) with exact_ := ?_, closed := ?_ }
    · intro other pending tight held
      obtain ⟨⟨counted, honest, waiting⟩, waits⟩ := ledger.exact_ other pending (by simp) held
      refine ⟨⟨counted, honest, ?_⟩, waits⟩
      simp only [Function.update_of_ne (fun same => tight (congrArg some same))]
      exact waiting
    · intro other answered
      obtain ⟨nobody, decided, over_⟩ := ledger.closed other answered
      refine ⟨nobody, ?_, over_⟩
      by_cases same : other = group
      · simp only [same, Function.update_self]
      · simp only [Function.update_of_ne same]
        exact decided
  refine ⟨_, ?_, ?_, by simp only [EditHost.onDecision, parked]; rfl⟩
  · split
    · refine ⟨⟨?_, released.idle⟩, opens.below, opens.decided, rfl, rfl⟩
      refine released.base.note rfl opens.below opens.decided ?_ ?_
      · intro id entry held same
        exact others id entry held (Mark.troubled.inj same).symm
      · intro buffer probe waits same
        exact probes buffer probe waits (Mark.troubled.inj same).symm
    · exact released.applyChanges opens
  · split
    · refine ⟨?_, ?_, none_open.symm, ?_, rfl⟩
      · refine loosened.grow rfl rfl loosened.noProbes rfl (fun _ _ => rfl) ?_ (by simp [Unanswered])
          ?_ (allowed_single unanswered)
        · intro other tight
          rw [List.mem_singleton]
          intro same
          cases same
          exact tight rfl
        · intro other same
          cases same
          exact unanswered
      · rw [EditHost.note, unanswered_append]
        exact ⟨unanswered, by simp [Unanswered]⟩
      · constructor
        · intro same
          cases same
        · intro calm
          exact absurd (List.mem_append_right _ (List.mem_singleton_self _)) calm
    · exact { loosened.applyChanges released opens unanswered none_open with }

/-- A parked edit's group has nothing open and no trouble. -/
theorem Ledger.parked_exact {pending : PendingApplyEdit} (ledger : Ledger none host)
    (kept : Kept host) (parked : host.confirmEdits group = some edit)
    (held : host.applyEdits group = some pending) :
    pending.outstanding = 0 ∧ pending.trouble = [] := by
  obtain ⟨released, opens, others, -⟩ := kept.release parked
  obtain ⟨⟨counted, honest, -⟩, -⟩ := ledger.exact_ group pending (by simp) held
  exact ⟨counted.trans (kept.base.openOf_eq_zero.2 others), honest.2 opens.calm⟩

theorem toList_eq_nil {α : Type} {value : Option α} : value.toList = [] ↔ value = none := by
  cases value <;> simp

theorem Ledger.onDecision {accepted : List String} (ledger : Ledger none host) (kept : Kept host) :
    Ledger none (host.onDecision false session group accepted).1 := by
  cases parked : host.confirmEdits group with
  | none =>
      simp only [EditHost.onDecision, parked]
      exact ledger
  | some edit =>
      obtain ⟨result, applied, tallied, same⟩ :=
        ledger.decision session accepted kept parked
      rw [same]
      refine tallied.ledger.tell applied.kept.base ?_ fun _ _ _ => applied.decided
      intro pending held
      rw [tallied.applies] at held
      obtain ⟨nothing, calm⟩ := ledger.parked_exact kept parked held
      refine ⟨?_, ?_, ?_⟩
      · change pending.outstanding + result.2.pending = _
        rw [nothing, Nat.zero_add]
        exact tallied.counted
      · change pending.trouble ++ result.2.outcome.failureReason.toList = [] ↔ _
        rw [calm, List.nil_append, toList_eq_nil]
        exact tallied.honest
      · intro waits
        cases waits

/-- What an application leaves of its group to a request. -/
structure Reported (group : Nat) (host : EditHost) (result : EditHost × AppliedEdit) : Prop where
  tallied : Tallied group host result
  same : result.2.group = group
  parked : result.2.awaitingConfirm = true → ∃ edit, result.1.confirmEdits group = some edit

theorem Ledger.applyEdit (session : Session) (edit : WorkspaceEditData) (asked : Bool)
    (ledger : Ledger none host) (kept : Kept host) :
    Reported host.nextGroup host (host.applyEdit false session edit asked) := by
  have unanswered : Unanswered host.log host.nextGroup := by
    intro request outcome member
    exact Nat.lt_irrefl _ (kept.base.groups _ member)
  have nobody : host.applyEdits host.nextGroup = none := by
    cases held : host.applyEdits host.nextGroup with
    | none => rfl
    | some pending => exact absurd (kept.base.requests _ pending held).1 (Nat.lt_irrefl _)
  have none_open : host.openOf host.nextGroup = 0 := by
    refine kept.base.openOf_eq_zero.2 ?_
    intro id entry held
    exact Nat.ne_of_lt (kept.base.groups _ (kept.base.noted id entry held))
  have loosened := ledger.loosen (some host.nextGroup)
  rw [EditHost.applyEdit]
  split
  · have numbered : Ledger (some host.nextGroup) { host with nextGroup := host.nextGroup + 1 } := by
      refine { loosened with exact_ := ?_ }
      intro other pending tight held
      obtain ⟨⟨counted, honest, parked⟩, waits⟩ := loosened.exact_ other pending tight held
      exact ⟨⟨counted, honest, parked⟩, waits⟩
    refine ⟨{ numbered.applyChanges kept.nextGroup.1 kept.nextGroup.2 unanswered none_open with },
      ?_, ?_⟩
    · exact (kept.nextGroup.1.applyChanges kept.nextGroup.2).same
    · intro waits
      rw [(kept.nextGroup.1.applyChanges kept.nextGroup.2).answered] at waits
      cases waits
  · have parked : Ledger none { host with
        nextGroup := host.nextGroup + 1
        confirmEdits := Function.update host.confirmEdits host.nextGroup (some edit) } := by
      have other_ : ∀ other, host.applyEdits other ≠ none ∨ ¬ Unanswered host.log other →
          other ≠ host.nextGroup := by
        rintro other (held | answered) rfl
        · exact held nobody
        · exact answered unanswered
      refine { ledger with exact_ := ?_, closed := ?_ }
      · intro other pending tight held
        obtain ⟨⟨counted, honest, parked⟩, waits⟩ := ledger.exact_ other pending tight held
        have ne := other_ other (Or.inl (by rw [held]; exact Option.some_ne_none _))
        refine ⟨⟨counted, honest, ?_⟩, waits⟩
        simp only [Function.update_of_ne ne]
        exact parked
      · intro other answered
        simp only [Function.update_of_ne (other_ other (Or.inr answered))]
        exact ledger.closed other answered
    split
    · refine ⟨⟨parked.loosen _, unanswered, none_open.symm, ?_, rfl⟩, rfl, ?_⟩
      · exact ⟨fun _ => kept.nextGroup.2.calm, fun _ => rfl⟩
      · intro _
        exact ⟨edit, Function.update_self ..⟩
    · obtain ⟨result, applied, tallied, same⟩ :=
        parked.decision session [] kept.park (Function.update_self ..)
      have untold : ∀ change, (result.1.record host.nextGroup change).settle host.nextGroup =
          result.1 := by
        intro change
        have held : result.1.applyEdits host.nextGroup = none := by
          rw [tallied.applies]
          exact nobody
        have record : result.1.record host.nextGroup change = result.1 := by
          rw [EditHost.record, held, Option.map_none, ← held, Function.update_eq_self]
        rw [record, EditHost.settle, held]
      rw [same, untold]
      refine ⟨{ tallied with }, applied.same, ?_⟩
      intro waits
      rw [applied.answered] at waits
      cases waits

theorem Ledger.onApplyEdit {asked : Bool} {request : Request} (ledger : Ledger none host)
    (kept : Kept host) : Ledger none (host.onApplyEdit false session edit asked request) := by
  obtain ⟨⟨loosened, unanswered, counted, honest, applies⟩, same, parked⟩ :=
    ledger.applyEdit session edit asked kept
  obtain ⟨kept, -, decided⟩ :=
    kept.applyEdit false session edit asked
  rw [EditHost.onApplyEdit]
  simp only [same] at decided ⊢
  refine loosened.answer kept.base unanswered ⟨counted, ?_, parked⟩ decided
  rw [toList_eq_nil]
  exact honest

/-! ### Events -/

theorem Ledger.onFsResult {result : Except FsError FsValue} (ledger : Ledger none host)
    (kept : Kept host) (begun : started host.log id = true) :
    Ledger none (host.onFsResult id result) := by
  have base := kept.base
  rw [EditHost.onFsResult]
  split
  · next gone =>
      split
      · next flight =>
          obtain ⟨entry, -, held, -⟩ := base.flying id flight
          rw [gone] at held
          cases held
      · exact ledger
  · next entry held =>
      have flight := base.flight held begun
      have known := base.noted id entry held
      have decided : host.confirmEdits entry.group = none := by
        cases parked : host.confirmEdits entry.group with
        | none => rfl
        | some edit => exact absurd rfl ((base.parked _ edit parked).2 _ known)
      have calm := base.calm id entry held
      have exactly : ∀ pending, host.applyEdits entry.group = some pending →
          pending.outstanding = host.openOf entry.group ∧ pending.trouble = [] ∧
            pending.awaitingConfirm = false := by
        intro pending record
        obtain ⟨⟨counted, honest, parked⟩, -⟩ := ledger.exact_ _ pending (by simp) record
        refine ⟨counted, honest.2 calm, ?_⟩
        rw [← Bool.not_eq_true]
        intro waits
        obtain ⟨edit, here⟩ := parked waits
        rw [decided] at here
        cases here
      have finish : ∀ {due next}, Base due next → Ledger none next → Ledger none next.pump :=
        fun base ledger => ledger.pump base (fun _ same => by cases same)
      split
      · next outcome =>
          have counts := openOf_taken base flight held entry.group
          rw [if_pos rfl] at counts
          have told : Ledger none (((host.taken id entry.group none).record entry.group fun pending =>
              { pending with outstanding := pending.outstanding - 1 }).settle entry.group) := by
            refine (ledger.taken base flight held).tell (base.taken flight held) ?_
              fun _ _ _ => decided
            intro pending record
            obtain ⟨counted, silent, answered⟩ := exactly pending record
            refine ⟨?_, ?_, ?_⟩
            · change pending.outstanding - 1 = _
              omega
            · exact iff_of_true silent (by simpa [EditHost.taken, EditHost.note] using calm)
            · intro waits
              rw [answered] at waits
              cases waits
          exact finish ((base.taken flight held).record fun _ _ _ => decided).settle told
      · next job op outcome =>
          have counts := openOf_chain base flight held job op entry.group
          have told : Ledger none (((host.chain id entry job op).record entry.group fun pending =>
              { pending with outstanding := pending.outstanding + 1 - 1 }).settle entry.group) := by
            refine (ledger.chain base flight held).tell (base.chain flight held) ?_
              fun _ _ _ => decided
            intro pending record
            obtain ⟨counted, silent, answered⟩ := exactly pending record
            refine ⟨?_, ?_, ?_⟩
            · change pending.outstanding + 1 - 1 = _
              omega
            · refine iff_of_true silent ?_
              rw [chain_eq flight]
              simpa using calm
            · intro waits
              rw [answered] at waits
              cases waits
          exact finish ((base.chain flight held).record fun _ _ _ => decided).settle told
      · next reason outcome =>
          have aground : ∀ other entry', (host.taken id entry.group none).fsInflight = some other →
              (host.taken id entry.group none).fsJobs other = some entry' →
              entry'.group ≠ entry.group := by
            intro other entry' flying
            rw [taken_eq flight] at flying
            cases flying
          have below : entry.group < host.nextGroup := base.groups _ known
          have pending' := ledger.unanswered base held
          have dropped := (base.taken flight held).abandon below decided aground
          have counts := openOf_abandon aground entry.group
          rw [if_pos rfl] at counts
          refine finish (dropped.record fun _ _ _ => decided).settle ?_
          refine ((ledger.taken base flight held).abandon ?_ aground).tell dropped ?_
            fun _ _ _ => decided
          · rw [EditHost.taken, EditHost.note, unanswered_append]
            exact ⟨pending', by simp [Unanswered]⟩
          · intro pending record
            obtain ⟨-, -, answered⟩ := exactly pending record
            refine ⟨counts.symm, ?_, ?_⟩
            · refine iff_of_false (by simp) ?_
              intro calm
              exact calm (List.mem_append_right _ (List.mem_singleton_self _))
            · intro waits
              rw [answered] at waits
              cases waits

end Bemtvi.Lsp.FileOps
