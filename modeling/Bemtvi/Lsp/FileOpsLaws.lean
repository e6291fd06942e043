/-
Module: Bemtvi.Lsp.FileOpsLaws
Purpose: What every run of the file operations of workspace edits keeps: one operation runs at a
  time and in the order queued, a chained one right behind its first; and a failure drops the rest
  of its own edit and nothing else.
Trusted boundary: none
Main exports: Lined, Stocked, Accounted, Logged, Filed, Base, Kept, run_kept, file_ops_in_order,
  failure_drops_its_edit
-/
import Bemtvi.Lsp.FileOps

namespace Bemtvi.Lsp.FileOps

open Run (Lawful lawful_nil lawful_concat)

/-! ### Marks -/

/-- The operations a mark names. -/
@[grind =]
def Mark.ids : Mark → List Nat
  | .queued id _ _ => [id]
  | .started id _ _ _ => [id]
  | .landed id _ chained => id :: chained.toList
  | .troubled _ => []
  | .answered _ _ _ => []

/-- The edit a mark is about. -/
def Mark.group : Mark → Nat
  | .queued _ group _ => group
  | .started _ group _ _ => group
  | .landed _ group _ => group
  | .troubled group => group
  | .answered group _ _ => group

theorem started_iff {log : List Mark} {id : Nat} :
    started log id = true ↔ ∃ group index job, Mark.started id group index job ∈ log := by
  rw [started, List.any_eq_true]
  constructor
  · rintro ⟨mark, member, same⟩
    cases mark with
    | started other group index job =>
        have same : other = id := by simpa using same
        exact ⟨group, index, job, same ▸ member⟩
    | _ => cases same
  · rintro ⟨group, index, job, member⟩
    exact ⟨_, member, by simp⟩

theorem started_append (log later : List Mark) (id : Nat) :
    started (log ++ later) id = (started log id || started later id) := List.any_append

/-- An operation that another one chained. -/
def Chained (log : List Mark) (id : Nat) : Prop :=
  ∃ first group, Mark.landed first group (some id) ∈ log

/-- When an operation may be started. -/
structure MayStart (before : List Mark) (id group : Nat) : Prop where
  once : started before id = false
  /-- What was started before has landed. -/
  alone : ∀ other, started before other = true →
    ∃ group' chained, Mark.landed other group' chained ∈ before
  /-- A chained operation is next. -/
  next : ∀ other, Chained before other → started before other = true ∨ other = id
  /-- Any other waits for what was queued before it. -/
  inTurn : ¬ Chained before id → ∀ other group' index, Mark.queued other group' index ∈ before →
    other < id → started before other = true ∨ Mark.troubled group' ∈ before
  calm : Mark.troubled group ∉ before

/-- What a mark says of the marks before it. -/
def Ok (before : List Mark) : Mark → Prop
  | .started id group _ _ => MayStart before id group
  | .landed id group _ =>
      (∃ index job, Mark.started id group index job ∈ before) ∧
        ∀ group' chained, Mark.landed id group' chained ∉ before
  | _ => True

/-! ### The invariant -/

/-- How the queue is lined up; `due` is a chained operation that is next. -/
structure Lined (due : Option Nat) (host : EditHost) : Prop where
  lined : ∃ rest, host.fsQueue = due.toList ++ rest ∧ rest.Pairwise (· < ·) ∧
    ∀ id ∈ rest, ¬ Chained host.log id
  free : due.isSome → host.fsInflight = none
  dueChained : ∀ id, due = some id → Chained host.log id
  distinct : host.fsQueue.Nodup

/-- The jobs that wait, and the one in flight. -/
structure Stocked (host : EditHost) : Prop where
  waiting : ∀ id ∈ host.fsQueue, ∃ entry job, host.fsJobs id = some entry ∧
    entry.job = some job ∧ started host.log id = false
  flying : ∀ id, host.fsInflight = some id → ∃ entry job, host.fsJobs id = some entry ∧
    entry.job = none ∧ Mark.started id entry.group entry.index job ∈ host.log ∧
    ∀ group chained, Mark.landed id group chained ∉ host.log
  held : ∀ id entry, host.fsJobs id = some entry → id ∈ host.fsQueue ∨ host.fsInflight = some id
  noted : ∀ id entry, host.fsJobs id = some entry →
    Mark.queued id entry.group entry.index ∈ host.log
  calm : ∀ id entry, host.fsJobs id = some entry → Mark.troubled entry.group ∉ host.log

/-- What became of the operations that the log names. -/
structure Accounted (due : Option Nat) (host : EditHost) : Prop where
  settled : ∀ id, started host.log id = true →
    host.fsInflight = some id ∨ ∃ group chained, Mark.landed id group chained ∈ host.log
  accounted : ∀ id group index, Mark.queued id group index ∈ host.log →
    id ∈ host.fsQueue ∨ started host.log id = true ∨ Mark.troubled group ∈ host.log
  chained : ∀ id, Chained host.log id → started host.log id = true ∨ due = some id

/-- What the log says by itself. -/
structure Logged (host : EditHost) : Prop where
  unique : ∀ id group index group' index', Mark.queued id group index ∈ host.log →
    Mark.queued id group' index' ∈ host.log → group = group'
  ids : ∀ mark ∈ host.log, ∀ id ∈ mark.ids, id < host.nextFsId
  groups : ∀ mark ∈ host.log, mark.group < host.nextGroup
  lawful : Lawful Ok host.log

/-- The probes, the requests and the edits that are parked. -/
structure Filed (host : EditHost) : Prop where
  calmProbes : ∀ buffer probe, host.createWrites buffer = some probe →
    Mark.troubled probe.1 ∉ host.log ∧ probe.1 < host.nextGroup ∧
      host.confirmEdits probe.1 = none
  requests : ∀ group pending, host.applyEdits group = some pending → group < host.nextGroup ∧
    (pending.awaitingConfirm = false → host.confirmEdits group = none)
  parked : ∀ group edit, host.confirmEdits group = some edit → group < host.nextGroup ∧
    ∀ mark ∈ host.log, mark.group ≠ group

/-- What holds of a host. -/
structure Base (due : Option Nat) (host : EditHost) : Prop extends Lined due host, Stocked host,
  Accounted due host, Logged host, Filed host

/-- What holds between two events. -/
structure Kept (host : EditHost) : Prop where
  base : Base none host
  idle : host.fsInflight = none → host.fsQueue = []

theorem new_kept : Kept EditHost.new := by
  refine ⟨?_, fun _ => rfl⟩
  constructor <;> constructor <;> simp [EditHost.new, Chained, started, lawful_nil]

variable {due : Option Nat} {host : EditHost}

variable {later : List Mark} {next host : EditHost} {change : PendingApplyEdit → PendingApplyEdit}
  {buffer : Nat} {loop : Loop} {session : Session} {offtick : Bool} {edit : WorkspaceEditData}
  {result : EditHost × AppliedEdit} {accepted : List String}

/-- Marks are added to the log that name operations queued before or now. -/
theorem Logged.grow (logged : Logged host) (owner : Nat) (log : next.log = host.log ++ later)
    (ids : host.nextFsId ≤ next.nextFsId) (groups : next.nextGroup = host.nextGroup)
    (named : ∀ mark ∈ later, ∀ id ∈ mark.ids, id < next.nextFsId)
    (below : ∀ mark ∈ later, mark.group < host.nextGroup)
    (queues : ∀ id group index, Mark.queued id group index ∈ later →
      id = host.nextFsId ∧ group = owner) (lawful : Lawful Ok (host.log ++ later)) :
    Logged next := by
  have fresh : ∀ group index, Mark.queued host.nextFsId group index ∉ host.log := by
    intro group index member
    exact Nat.lt_irrefl _ (logged.ids _ member _ (by simp [Mark.ids]))
  constructor
  case unique =>
    rw [log]
    intro id one _ two _ first second
    rcases List.mem_append.1 first with old | new <;> rcases List.mem_append.1 second with old' | new'
    · exact logged.unique id _ _ _ _ old old'
    · obtain ⟨rfl, -⟩ := queues _ _ _ new'
      exact absurd old (fresh _ _)
    · obtain ⟨rfl, -⟩ := queues _ _ _ new
      exact absurd old' (fresh _ _)
    · rw [(queues _ _ _ new).2, (queues _ _ _ new').2]
  case ids =>
    rw [log]
    intro mark member id name
    rcases List.mem_append.1 member with old | new
    · exact Nat.lt_of_lt_of_le (logged.ids mark old id name) ids
    · exact named mark new id name
  case groups =>
    rw [log, groups]
    intro mark member
    rcases List.mem_append.1 member with old | new
    · exact logged.groups mark old
    · exact below mark new
  case lawful =>
    rw [log]
    exact lawful

/-- The log grows by marks of edits that are not parked, and troubles no edit with a probe. -/
theorem Filed.grow (filed : Filed host) (log : next.log = host.log ++ later)
    (groups : next.nextGroup = host.nextGroup) (applies : next.applyEdits = host.applyEdits)
    (confirms : next.confirmEdits = host.confirmEdits)
    (probes : ∀ buffer probe, next.createWrites buffer = some probe →
      host.createWrites buffer = some probe ∧ Mark.troubled probe.1 ∉ later)
    (decided : ∀ mark ∈ later, host.confirmEdits mark.group = none) : Filed next := by
  constructor
  case calmProbes =>
    intro buffer probe waits
    obtain ⟨waits, calm⟩ := probes buffer probe waits
    obtain ⟨before, rest⟩ := filed.calmProbes buffer probe waits
    rw [log, groups, confirms, List.mem_append, not_or]
    exact ⟨⟨before, calm⟩, rest⟩
  case requests =>
    rw [applies, groups, confirms]
    exact filed.requests
  case parked =>
    rw [confirms, groups, log]
    intro group edit waits
    obtain ⟨below, apart⟩ := filed.parked group edit waits
    refine ⟨below, fun mark member => ?_⟩
    rcases List.mem_append.1 member with old | new
    · exact apart mark old
    · rintro rfl
      rw [decided mark new] at waits
      cases waits

/-- An edit with a mark is not parked. -/
theorem Filed.decided {mark : Mark} (filed : Filed host) (member : mark ∈ host.log) :
    host.confirmEdits mark.group = none := by
  cases waits : host.confirmEdits mark.group with
  | none => rfl
  | some edit => exact absurd rfl ((filed.parked _ edit waits).2 mark member)

/-- What is not named yet is nowhere. -/
theorem Base.unnamed (base : Base due host) {mark : Mark} (named : host.nextFsId ∈ mark.ids) :
    mark ∉ host.log := by
  intro member
  exact Nat.lt_irrefl _ (base.ids mark member _ named)

theorem Base.unstarted (base : Base due host) : started host.log host.nextFsId = false := by
  rw [← Bool.not_eq_true, started_iff]
  rintro ⟨group, index, job, member⟩
  exact base.unnamed (by simp [Mark.ids]) member

theorem Base.not_chained (base : Base due host) : ¬ Chained host.log host.nextFsId := by
  rintro ⟨first, group, member⟩
  exact base.unnamed (by simp [Mark.ids]) member

theorem Base.no_job (base : Base due host) : host.fsJobs host.nextFsId = none := by
  cases job : host.fsJobs host.nextFsId with
  | none => rfl
  | some entry => exact absurd (base.noted _ _ job) (base.unnamed (by simp [Mark.ids]))

theorem Base.queue_lt (base : Base due host) {id : Nat} (member : id ∈ host.fsQueue) :
    id < host.nextFsId := by
  obtain ⟨entry, job, held, -⟩ := base.waiting id member
  exact base.ids _ (base.noted id entry held) id (by simp [Mark.ids])

theorem chained_append {log : List Mark} {id : Nat} :
    Chained (log ++ later) id ↔ Chained log id ∨ Chained later id := by
  simp only [Chained, List.mem_append, exists_or]

theorem started_mark {log : List Mark} {id group index : Nat} {job : FsJob}
    (member : Mark.started id group index job ∈ log) : started log id = true :=
  started_iff.2 ⟨group, index, job, member⟩

/-- A group that operations may be queued for, and that owns the queue when nothing is in flight. -/
structure Opens (host : EditHost) (group : Nat) : Prop where
  below : group < host.nextGroup
  decided : host.confirmEdits group = none
  calm : Mark.troubled group ∉ host.log
  aground : ∀ id entry, host.fsInflight = some id → host.fsJobs id = some entry →
    entry.group ≠ group
  own : host.fsInflight = none → ∀ id ∈ host.fsQueue, ∃ entry, host.fsJobs id = some entry ∧
    entry.group = group

section Queue

variable {group index : Nat} {job : FsJob} {op : WorkspaceFsOp}

theorem Base.queue_lined (base : Base none host) : Lined none (host.queueFsJob group index job op) := by
  constructor
  case lined =>
    obtain ⟨rest, line, rising, unchained⟩ := base.lined
    refine ⟨rest ++ [host.nextFsId], ?_, ?_, ?_⟩
    · simp [EditHost.queueFsJob, EditHost.note, line]
    · refine List.pairwise_append.2 ⟨rising, List.pairwise_singleton _ _, ?_⟩
      intro id member last same
      rw [List.mem_singleton.1 same]
      exact base.queue_lt (line ▸ member)
    · intro id member
      simp only [EditHost.queueFsJob, EditHost.note, chained_append]
      rcases List.mem_append.1 member with old | new
      · simpa [Chained] using unchained id old
      · rw [List.mem_singleton.1 new]
        simpa [Chained] using base.not_chained
  case free =>
    intro some_due
    cases some_due
  case dueChained =>
    intro id same
    cases same
  case distinct =>
    refine List.nodup_append.2 ⟨base.distinct, List.nodup_singleton _, ?_⟩
    intro id member other same
    rw [List.mem_singleton.1 same]
    exact Nat.ne_of_lt (base.queue_lt member)

theorem Base.queue_stocked (base : Base none host) (calm : Mark.troubled group ∉ host.log) :
    Stocked (host.queueFsJob group index job op) := by
  have other : ∀ {id}, host.fsJobs id ≠ none → id ≠ host.nextFsId := by
    rintro id held rfl
    exact held base.no_job
  constructor
  case waiting =>
    intro id member
    simp only [EditHost.queueFsJob, EditHost.note, started_append]
    rcases List.mem_append.1 member with old | new
    · obtain ⟨entry, job, held, kept, unstarted⟩ := base.waiting id old
      have ne := other (by rw [held]; exact Option.some_ne_none _)
      exact ⟨entry, job, by rw [Function.update_of_ne ne]; exact held, kept, by
        simpa [started] using unstarted⟩
    · rw [List.mem_singleton.1 new, Function.update_self]
      exact ⟨_, job, rfl, rfl, by simpa [started] using base.unstarted⟩
  case flying =>
    intro id flying
    obtain ⟨entry, job, held, taken, begun, unlanded⟩ := base.flying id flying
    have ne := other (by rw [held]; exact Option.some_ne_none _)
    refine ⟨entry, job, ?_, taken, List.mem_append_left _ begun, ?_⟩
    · simp only [EditHost.queueFsJob, EditHost.note]
      rw [Function.update_of_ne ne]
      exact held
    · intro group chained
      simpa [EditHost.queueFsJob, EditHost.note] using unlanded group chained
  case held =>
    intro id entry held
    simp only [EditHost.queueFsJob, EditHost.note] at held ⊢
    by_cases same : id = host.nextFsId
    · exact Or.inl (List.mem_append_right _ (List.mem_singleton.2 same))
    · rw [Function.update_of_ne same] at held
      exact (base.held id entry held).imp_left (List.mem_append_left _)
  case noted =>
    intro id entry held
    simp only [EditHost.queueFsJob, EditHost.note] at held ⊢
    by_cases same : id = host.nextFsId
    · rw [same, Function.update_self] at held
      cases held
      rw [same]
      exact List.mem_append_right _ (List.mem_singleton_self _)
    · rw [Function.update_of_ne same] at held
      exact List.mem_append_left _ (base.noted id entry held)
  case calm =>
    intro id entry held
    simp only [EditHost.queueFsJob, EditHost.note] at held ⊢
    by_cases same : id = host.nextFsId
    · rw [same, Function.update_self] at held
      cases held
      simpa using calm
    · rw [Function.update_of_ne same] at held
      simpa using base.calm id entry held

theorem Base.queue_accounted (base : Base none host) :
    Accounted none (host.queueFsJob group index job op) := by
  constructor
  case settled =>
    intro id begun
    have begun : started host.log id = true := by
      simpa [EditHost.queueFsJob, EditHost.note, started] using begun
    refine (base.settled id begun).imp_right ?_
    rintro ⟨group, chained, landed⟩
    exact ⟨group, chained, List.mem_append_left _ landed⟩
  case accounted =>
    intro id group' index' marked
    simp only [EditHost.queueFsJob, EditHost.note, started_append]
    rcases List.mem_append.1 marked with old | new
    · rcases base.accounted id group' index' old with here | begun | troubled
      · exact Or.inl (List.mem_append_left _ here)
      · exact Or.inr (Or.inl (by rw [begun, Bool.true_or]))
      · exact Or.inr (Or.inr (List.mem_append_left _ troubled))
    · cases List.mem_singleton.1 new
      exact Or.inl (List.mem_append_right _ (List.mem_singleton_self _))
  case chained =>
    intro id chained
    have chained : Chained host.log id := by
      simpa [EditHost.queueFsJob, EditHost.note, chained_append, Chained] using chained
    refine (base.chained id chained).imp_left ?_
    intro begun
    simp [EditHost.queueFsJob, EditHost.note, started_append, begun]

/-- An operation is queued. -/
theorem Base.queue (base : Base none host) (below : group < host.nextGroup)
    (decided : host.confirmEdits group = none) (calm : Mark.troubled group ∉ host.log) :
    Base none (host.queueFsJob group index job op) where
  toLined := base.queue_lined
  toStocked := base.queue_stocked calm
  toAccounted := base.queue_accounted
  toLogged := by
    refine base.toLogged.grow group rfl (Nat.le_succ _) rfl ?_ ?_ ?_
      (lawful_concat.2 ⟨base.lawful, trivial⟩)
    · intro mark member id named
      rw [List.mem_singleton.1 member] at named
      rw [List.mem_singleton.1 named]
      exact Nat.lt_succ_self _
    · intro mark member
      rw [List.mem_singleton.1 member]
      exact below
    · intro id group' index' member
      cases List.mem_singleton.1 member
      exact ⟨rfl, rfl⟩
  toFiled := by
    refine base.toFiled.grow rfl rfl rfl rfl (fun buffer probe waits => ⟨waits, by simp⟩) ?_
    intro mark member
    rw [List.mem_singleton.1 member]
    exact decided

end Queue

section Note

variable {mark : Mark}

theorem chained_note (quiet : mark.ids = []) {id : Nat} :
    Chained (host.note mark).log id ↔ Chained host.log id := by
  cases mark <;> simp_all [EditHost.note, Chained, Mark.ids]

theorem started_note (quiet : mark.ids = []) (id : Nat) :
    started (host.note mark).log id = started host.log id := by
  cases mark <;> simp_all [EditHost.note, started, Mark.ids]

theorem mem_note (quiet : mark.ids = []) {other : Mark} (named : other.ids ≠ []) :
    other ∈ (host.note mark).log ↔ other ∈ host.log := by
  simp only [EditHost.note, List.mem_append, List.mem_singleton, or_iff_left_iff_imp]
  rintro rfl
  exact absurd quiet named

theorem Base.note_lined (base : Base due host) (quiet : mark.ids = []) : Lined due (host.note mark) := by
  constructor
  case lined =>
    obtain ⟨rest, line, rising, unchained⟩ := base.lined
    refine ⟨rest, line, rising, ?_⟩
    intro id member
    rw [chained_note quiet]
    exact unchained id member
  case free =>
    exact base.free
  case dueChained =>
    intro id same
    rw [chained_note quiet]
    exact base.dueChained id same
  case distinct =>
    exact base.distinct

theorem Base.note_stocked (base : Base due host) (quiet : mark.ids = [])
    (calm : ∀ id entry, host.fsJobs id = some entry → mark ≠ .troubled entry.group) :
    Stocked (host.note mark) := by
  constructor
  case waiting =>
    intro id member
    rw [started_note quiet]
    exact base.waiting id member
  case flying =>
    intro id flying
    obtain ⟨entry, job, held, taken, begun, unlanded⟩ := base.flying id flying
    refine ⟨entry, job, held, taken, List.mem_append_left _ begun, ?_⟩
    intro group chained
    rw [mem_note quiet (by simp [Mark.ids])]
    exact unlanded group chained
  case held =>
    exact base.held
  case noted =>
    intro id entry held
    exact List.mem_append_left _ (base.noted id entry held)
  case calm =>
    intro id entry held troubled
    rcases List.mem_append.1 troubled with old | new
    · exact base.calm id entry held old
    · exact calm id entry held (List.mem_singleton.1 new).symm

theorem Base.note_accounted (base : Base due host) (quiet : mark.ids = []) :
    Accounted due (host.note mark) := by
  constructor
  case settled =>
    intro id begun
    rw [started_note quiet] at begun
    refine (base.settled id begun).imp_right ?_
    rintro ⟨group, chained, landed⟩
    exact ⟨group, chained, List.mem_append_left _ landed⟩
  case accounted =>
    intro id group index marked
    rw [mem_note quiet (by simp [Mark.ids])] at marked
    rw [started_note quiet]
    exact (base.accounted id group index marked).imp_right
      (Or.imp_right (List.mem_append_left _))
  case chained =>
    intro id chained
    rw [chained_note quiet] at chained
    rw [started_note quiet]
    exact base.chained id chained

/-- A mark that names no operation. -/
theorem Base.note (base : Base due host) (quiet : mark.ids = [])
    (below : mark.group < host.nextGroup) (decided : host.confirmEdits mark.group = none)
    (calm : ∀ id entry, host.fsJobs id = some entry → mark ≠ .troubled entry.group)
    (probes : ∀ buffer probe, host.createWrites buffer = some probe → mark ≠ .troubled probe.1) :
    Base due (host.note mark) where
  toLined := base.note_lined quiet
  toStocked := base.note_stocked quiet calm
  toAccounted := base.note_accounted quiet
  toLogged := by
    refine base.toLogged.grow 0 rfl (Nat.le_refl _) rfl ?_ ?_ ?_ (lawful_concat.2 ⟨base.lawful, ?_⟩)
    · intro other member id named
      rw [List.mem_singleton.1 member, quiet] at named
      cases named
    · intro other member
      rw [List.mem_singleton.1 member]
      exact below
    · intro id group index member
      rw [← List.mem_singleton.1 member] at quiet
      cases quiet
    · cases mark <;> trivial
  toFiled := by
    refine base.toFiled.grow rfl rfl rfl rfl (fun buffer probe waits => ⟨waits, ?_⟩) ?_
    · intro troubled
      exact probes buffer probe waits (List.mem_singleton.1 troubled).symm
    · intro other member
      rw [List.mem_singleton.1 member]
      exact decided

end Note

/-! ### Dropping a group -/

theorem mem_queuedOf {group id : Nat} : id ∈ host.queuedOf group ↔
    id ∈ host.fsQueue ∧ ∃ entry, host.fsJobs id = some entry ∧ entry.group = group := by
  rw [EditHost.queuedOf, List.mem_filter]
  refine and_congr_right fun _ => ?_
  cases host.fsJobs id <;> simp

theorem mem_dropGroup {group id : Nat} : id ∈ (host.dropGroup group).fsQueue ↔
    id ∈ host.fsQueue ∧ ∀ entry, host.fsJobs id = some entry → entry.group ≠ group := by
  simp only [EditHost.dropGroup, List.mem_filter, decide_eq_true_eq, mem_queuedOf]
  constructor
  · rintro ⟨member, kept⟩
    exact ⟨member, fun entry held same => kept ⟨member, entry, held, same⟩⟩
  · rintro ⟨member, kept⟩
    refine ⟨member, ?_⟩
    rintro ⟨-, entry, held, same⟩
    exact kept entry held same

theorem dropGroup_jobs {group id : Nat} {entry : WorkspaceFsJob} :
    (host.dropGroup group).fsJobs id = some entry ↔
      host.fsJobs id = some entry ∧ (id ∈ host.fsQueue → entry.group ≠ group) := by
  simp only [EditHost.dropGroup, mem_queuedOf]
  constructor
  · intro held
    split at held
    · cases held
    · next kept =>
        refine ⟨held, fun member same => kept ⟨member, entry, held, same⟩⟩
  · rintro ⟨held, kept⟩
    rw [if_neg]
    · exact held
    · rintro ⟨member, entry', held', same⟩
      rw [held] at held'
      cases held'
      exact kept member same

section Abandon

variable {group : Nat}

theorem dropGroup_started (id : Nat) :
    started ((host.dropGroup group).note (.troubled group)).log id = started host.log id := by
  simp [EditHost.note, EditHost.dropGroup, started]

theorem dropGroup_chained {id : Nat} :
    Chained ((host.dropGroup group).note (.troubled group)).log id ↔ Chained host.log id := by
  simp [EditHost.note, EditHost.dropGroup, Chained]

/-- What is in the jobs of a host whose group was dropped is of other groups. -/
theorem Base.dropped_others (base : Base none host)
    (landed : ∀ id entry, host.fsInflight = some id → host.fsJobs id = some entry →
      entry.group ≠ group) {id : Nat} {entry : WorkspaceFsJob}
    (held : (host.dropGroup group).fsJobs id = some entry) : entry.group ≠ group := by
  obtain ⟨held, dropped⟩ := dropGroup_jobs.1 held
  exact (base.held id entry held).elim dropped fun flying => landed id entry flying held

theorem Base.abandon_lined (base : Base none host) :
    Lined none ((host.dropGroup group).note (.troubled group)) := by
  constructor
  case lined =>
    obtain ⟨rest, line, rising, unchained⟩ := base.lined
    cases line
    refine ⟨_, rfl, rising.filter _, ?_⟩
    intro id member
    rw [dropGroup_chained]
    exact unchained id (List.mem_filter.1 member).1
  case free =>
    intro some_due
    cases some_due
  case dueChained =>
    intro id same
    cases same
  case distinct =>
    exact base.distinct.filter _

theorem Base.abandon_stocked (base : Base none host)
    (landed : ∀ id entry, host.fsInflight = some id → host.fsJobs id = some entry →
      entry.group ≠ group) : Stocked ((host.dropGroup group).note (.troubled group)) := by
  constructor
  case waiting =>
    intro id member
    obtain ⟨member, kept⟩ := mem_dropGroup.1 member
    obtain ⟨entry, job, held, taken, unstarted⟩ := base.waiting id member
    refine ⟨entry, job, dropGroup_jobs.2 ⟨held, fun _ => kept entry held⟩, taken, ?_⟩
    rw [dropGroup_started]
    exact unstarted
  case flying =>
    intro id flying
    obtain ⟨entry, job, held, taken, begun, unlanded⟩ := base.flying id flying
    refine ⟨entry, job, dropGroup_jobs.2 ⟨held, fun _ => landed id entry flying held⟩, taken,
      List.mem_append_left _ begun, ?_⟩
    intro group' chained
    simpa [EditHost.note, EditHost.dropGroup] using unlanded group' chained
  case held =>
    intro id entry held
    have kept := base.dropped_others landed held
    obtain ⟨held, -⟩ := dropGroup_jobs.1 held
    refine (base.held id entry held).imp_left fun member => mem_dropGroup.2 ⟨member, ?_⟩
    intro entry' held'
    rw [held] at held'
    cases held'
    exact kept
  case noted =>
    intro id entry held
    exact List.mem_append_left _ (base.noted id entry (dropGroup_jobs.1 held).1)
  case calm =>
    intro id entry held troubled
    rcases List.mem_append.1 troubled with old | new
    · exact base.calm id entry (dropGroup_jobs.1 held).1 old
    · cases List.mem_singleton.1 new
      exact base.dropped_others landed held rfl

theorem Base.abandon_accounted (base : Base none host) :
    Accounted none ((host.dropGroup group).note (.troubled group)) := by
  constructor
  case settled =>
    intro id begun
    rw [dropGroup_started] at begun
    refine (base.settled id begun).imp_right ?_
    rintro ⟨group', chained, here⟩
    exact ⟨group', chained, List.mem_append_left _ here⟩
  case accounted =>
    intro id group' index marked
    have marked : Mark.queued id group' index ∈ host.log := by
      simpa [EditHost.note, EditHost.dropGroup] using marked
    rw [dropGroup_started]
    rcases base.accounted id group' index marked with here | begun | troubled
    · by_cases same : group' = group
      · exact Or.inr (Or.inr (same ▸ List.mem_append_right _ (List.mem_singleton_self _)))
      · refine Or.inl (mem_dropGroup.2 ⟨here, ?_⟩)
        intro entry held dropped
        exact same ((base.unique id _ _ _ _ marked (base.noted id entry held)).trans dropped)
    · exact Or.inr (Or.inl begun)
    · exact Or.inr (Or.inr (List.mem_append_left _ troubled))
  case chained =>
    intro id chained
    rw [dropGroup_chained] at chained
    rw [dropGroup_started]
    exact base.chained id chained

/-- An edit's operations that wait are dropped, and its trouble is noted. -/
theorem Base.abandon (base : Base none host) (below : group < host.nextGroup)
    (decided : host.confirmEdits group = none)
    (landed : ∀ id entry, host.fsInflight = some id → host.fsJobs id = some entry →
      entry.group ≠ group) : Base none ((host.dropGroup group).note (.troubled group)) where
  toLined := base.abandon_lined
  toStocked := base.abandon_stocked landed
  toAccounted := base.abandon_accounted
  toLogged := by
    refine base.toLogged.grow 0 rfl (Nat.le_refl _) rfl ?_ ?_ ?_
      (lawful_concat.2 ⟨base.lawful, trivial⟩)
    · intro mark member id named
      rw [List.mem_singleton.1 member] at named
      cases named
    · intro mark member
      rw [List.mem_singleton.1 member]
      exact below
    · intro id group' index member
      cases List.mem_singleton.1 member
  toFiled := by
    refine base.toFiled.grow rfl rfl rfl rfl (fun buffer probe waits => ?_) ?_
    · have waits : host.createWrites buffer = some probe ∧ probe.1 ≠ group := by
        simpa [EditHost.note, EditHost.dropGroup, Option.filter_eq_some_iff] using waits
      refine ⟨waits.1, fun troubled => ?_⟩
      cases List.mem_singleton.1 troubled
      exact waits.2 rfl
    · intro mark member
      rw [List.mem_singleton.1 member]
      exact decided

end Abandon

/-! ### The pump -/

/-- What stands behind the head of the queue, and which operation is due. -/
theorem Base.behind {id : Nat} {rest : List Nat} (base : Base due host)
    (line : host.fsQueue = id :: rest) :
    rest.Pairwise (· < ·) ∧ (∀ other ∈ rest, ¬ Chained host.log other) ∧
      (∀ other, due = some other → other = id) ∧
      (¬ Chained host.log id → ∀ other ∈ rest, id < other) := by
  obtain ⟨behind, whole, rising, unchained⟩ := base.lined
  rw [line] at whole
  cases due with
  | none =>
      cases whole
      obtain ⟨first, rising⟩ := List.pairwise_cons.1 rising
      refine ⟨rising, fun other here => unchained other (List.mem_cons_of_mem _ here), ?_,
        fun _ => first⟩
      intro other same
      cases same
  | some other =>
      cases whole
      refine ⟨rising, unchained, fun other same => (Option.some.inj same).symm, ?_⟩
      intro free
      exact absurd (base.dueChained id rfl) free

/-- What is not started has not landed. -/
theorem Base.unlanded {id : Nat} (base : Base due host) (unstarted : started host.log id = false)
    (group : Nat) (chained : Option Nat) : Mark.landed id group chained ∉ host.log := by
  intro landed
  obtain ⟨before, after, whole⟩ := List.append_of_mem landed
  obtain ⟨⟨index, job, begun⟩, -⟩ := base.lawful _ _ _ whole
  rw [started_mark (whole ▸ List.mem_append_left _ begun)] at unstarted
  cases unstarted

section Start

variable {id : Nat} {rest : List Nat} {entry : WorkspaceFsJob} {job : FsJob}

theorem start_started (other : Nat) : started (host.start id entry job rest).log other =
    (started host.log other || decide (id = other)) := by
  simp [EditHost.start, EditHost.note, started]

theorem start_chained {other : Nat} :
    Chained (host.start id entry job rest).log other ↔ Chained host.log other := by
  simp [EditHost.start, EditHost.note, Chained]

theorem Base.start_lined (base : Base due host) (line : host.fsQueue = id :: rest) :
    Lined none (host.start id entry job rest) := by
  have distinct := base.distinct
  rw [line] at distinct
  obtain ⟨rising, unchained, -, -⟩ := base.behind line
  constructor
  case lined =>
    refine ⟨rest, rfl, rising, ?_⟩
    intro other here
    rw [start_chained]
    exact unchained other here
  case free =>
    intro some_due
    cases some_due
  case dueChained =>
    intro other same
    cases same
  case distinct =>
    exact (List.nodup_cons.1 distinct).2

theorem Base.start_stocked (base : Base due host) (idle : host.fsInflight = none)
    (line : host.fsQueue = id :: rest) (held : host.fsJobs id = some entry) :
    Stocked (host.start id entry job rest) := by
  obtain ⟨-, -, -, -, unstarted⟩ := base.waiting id (line ▸ List.mem_cons_self)
  have distinct := base.distinct
  rw [line] at distinct
  have elsewhere : ∀ other ∈ rest, other ≠ id := by
    rintro other here rfl
    exact (List.nodup_cons.1 distinct).1 here
  constructor
  case waiting =>
    intro other here
    obtain ⟨entry', job', held', ready', unstarted'⟩ :=
      base.waiting other (line ▸ List.mem_cons_of_mem _ here)
    refine ⟨entry', job', ?_, ready', ?_⟩
    · simp only [EditHost.start, EditHost.note]
      rw [Function.update_of_ne (elsewhere other here)]
      exact held'
    · rw [start_started, unstarted', decide_eq_false (elsewhere other here).symm]
      rfl
  case flying =>
    intro other flying
    cases flying
    refine ⟨{ entry with job := none }, job, ?_, rfl,
      List.mem_append_right _ (List.mem_singleton_self _), ?_⟩
    · simp [EditHost.start, EditHost.note]
    · intro group chained
      simpa [EditHost.start, EditHost.note] using base.unlanded unstarted group chained
  case held =>
    intro other entry' held'
    simp only [EditHost.start, EditHost.note] at held' ⊢
    by_cases same : other = id
    · exact Or.inr (congrArg some same.symm)
    · rw [Function.update_of_ne same] at held'
      rcases base.held other entry' held' with here | flying
      · rw [line] at here
        exact Or.inl ((List.mem_cons.1 here).resolve_left same)
      · rw [idle] at flying
        cases flying
  case noted =>
    intro other entry' held'
    simp only [EditHost.start, EditHost.note] at held' ⊢
    by_cases same : other = id
    · rw [same, Function.update_self] at held'
      cases held'
      rw [same]
      exact List.mem_append_left _ (base.noted id entry held)
    · rw [Function.update_of_ne same] at held'
      exact List.mem_append_left _ (base.noted other entry' held')
  case calm =>
    intro other entry' held'
    simp only [EditHost.start, EditHost.note] at held' ⊢
    by_cases same : other = id
    · rw [same, Function.update_self] at held'
      cases held'
      simpa using base.calm id entry held
    · rw [Function.update_of_ne same] at held'
      simpa using base.calm other entry' held'

theorem Base.start_accounted (base : Base due host) (idle : host.fsInflight = none)
    (line : host.fsQueue = id :: rest) : Accounted none (host.start id entry job rest) := by
  obtain ⟨-, -, next, -⟩ := base.behind line
  constructor
  case settled =>
    intro other begun
    rw [start_started, Bool.or_eq_true, decide_eq_true_eq] at begun
    rcases begun with old | same
    · rcases base.settled other old with flying | ⟨group, chained, landed⟩
      · rw [idle] at flying
        cases flying
      · exact Or.inr ⟨group, chained, List.mem_append_left _ landed⟩
    · exact Or.inl (congrArg some same)
  case accounted =>
    intro other group index marked
    have marked : Mark.queued other group index ∈ host.log := by
      simpa [EditHost.start, EditHost.note] using marked
    rw [start_started, Bool.or_eq_true, decide_eq_true_eq]
    rcases base.accounted other group index marked with here | begun | troubled
    · rw [line] at here
      rcases List.mem_cons.1 here with same | here
      · exact Or.inr (Or.inl (Or.inr same.symm))
      · exact Or.inl here
    · exact Or.inr (Or.inl (Or.inl begun))
    · exact Or.inr (Or.inr (List.mem_append_left _ troubled))
  case chained =>
    intro other chained
    rw [start_chained] at chained
    rw [start_started, Bool.or_eq_true, decide_eq_true_eq]
    rcases base.chained other chained with begun | same
    · exact Or.inl (Or.inl begun)
    · exact Or.inl (Or.inr (next other same).symm)

/-- The head of the queue may be started. -/
theorem Base.may_start (base : Base due host) (idle : host.fsInflight = none)
    (line : host.fsQueue = id :: rest) (held : host.fsJobs id = some entry) :
    MayStart host.log id entry.group := by
  obtain ⟨-, -, -, -, unstarted⟩ := base.waiting id (line ▸ List.mem_cons_self)
  obtain ⟨-, -, next, ahead⟩ := base.behind line
  constructor
  case once =>
    exact unstarted
  case alone =>
    intro other begun
    rcases base.settled other begun with flying | landed
    · rw [idle] at flying
      cases flying
    · exact landed
  case next =>
    intro other chained
    exact (base.chained other chained).imp_right (next other)
  case inTurn =>
    intro free other group index marked earlier
    rcases base.accounted other group index marked with here | settled
    · rw [line] at here
      rcases List.mem_cons.1 here with same | here
      · exact absurd same (Nat.ne_of_lt earlier)
      · exact absurd (ahead free other here) (Nat.lt_asymm earlier)
    · exact settled
  case calm =>
    exact base.calm id entry held
/-- The operation at the head of the queue is started. -/
theorem Base.start (base : Base due host) (idle : host.fsInflight = none)
    (line : host.fsQueue = id :: rest) (held : host.fsJobs id = some entry) :
    Base none (host.start id entry job rest) where
  toLined := base.start_lined line
  toStocked := base.start_stocked idle line held
  toAccounted := base.start_accounted idle line
  toLogged := by
    refine base.toLogged.grow 0 rfl (Nat.le_refl _) rfl ?_ ?_ ?_
      (lawful_concat.2 ⟨base.lawful, base.may_start idle line held⟩)
    · intro mark member other named
      rw [List.mem_singleton.1 member] at named
      rw [List.mem_singleton.1 named]
      exact base.queue_lt (line ▸ List.mem_cons_self)
    · intro mark member
      rw [List.mem_singleton.1 member]
      exact base.groups (.queued id entry.group entry.index) (base.noted id entry held)
    · intro other group index member
      cases List.mem_singleton.1 member
  toFiled := by
    have known := base.decided (base.noted id entry held)
    refine base.toFiled.grow rfl rfl rfl rfl (fun buffer probe waits => ⟨waits, by simp⟩) ?_
    intro mark member
    rw [List.mem_singleton.1 member]
    exact known

end Start

/-- The pump starts the head of the queue, or has nothing to do. -/
theorem Base.pump_cases (base : Base due host) :
    (host.pump = host ∧ (host.fsInflight.isSome ∨ host.fsQueue = [])) ∨
      ∃ id rest entry job, host.fsInflight = none ∧ host.fsQueue = id :: rest ∧
        host.fsJobs id = some entry ∧ host.pump = host.start id entry job rest := by
  cases flight : host.fsInflight with
  | some id =>
      refine Or.inl ⟨?_, Or.inl rfl⟩
      rw [EditHost.pump, flight]
  | none =>
      cases line : host.fsQueue with
      | nil =>
          refine Or.inl ⟨?_, Or.inr rfl⟩
          simp only [EditHost.pump, flight, line, EditHost.pumpFrom]
          rw [← line, ← flight]
      | cons id rest =>
          obtain ⟨entry, job, held, ready, -⟩ := base.waiting id (line ▸ List.mem_cons_self)
          refine Or.inr ⟨id, rest, entry, job, rfl, rfl, held, ?_⟩
          simp only [EditHost.pump, flight, line, EditHost.pumpFrom, held, ready]

theorem Base.pump (base : Base due host) : Kept host.pump := by
  rcases base.pump_cases with ⟨same, busy⟩ | ⟨id, rest, entry, job, idle, line, held, same⟩
  · rw [same]
    cases due with
    | none =>
        refine ⟨base, ?_⟩
        intro idle
        refine busy.resolve_left ?_
        rw [idle]
        exact Bool.false_ne_true
    | some other =>
        obtain ⟨rest, whole, -⟩ := base.lined
        rw [base.free rfl] at busy
        rcases busy with flies | line
        · cases flies
        · rw [line] at whole
          cases whole
  · rw [same]
    refine ⟨base.start idle line held, ?_⟩
    intro still
    cases still

/-! ### Results -/

/-- The operation in flight is not in the queue. -/
theorem Base.aground {flying id : Nat} (base : Base due host)
    (flight : host.fsInflight = some flying) (waits : id ∈ host.fsQueue) : id ≠ flying := by
  rintro rfl
  obtain ⟨entry, job, held, ready, -⟩ := base.waiting id waits
  obtain ⟨entry', job', held', taken, -⟩ := base.flying id flight
  rw [held] at held'
  cases held'
  rw [taken] at ready
  cases ready

theorem taken_eq {id group : Nat} {chained : Option Nat} (flight : host.fsInflight = some id) :
    host.taken id group chained =
      { host with
        fsInflight := none
        fsJobs := Function.update host.fsJobs id none
        log := host.log ++ [Mark.landed id group chained] } := by
  rw [EditHost.taken, EditHost.note, if_pos flight]

section Taken

variable {id : Nat} {entry : WorkspaceFsJob}

variable {chained : Option Nat} {group : Nat}

theorem taken_started (flight : host.fsInflight = some id) (other : Nat) :
    started (host.taken id group chained).log other = started host.log other := by
  simp [taken_eq flight, started]

theorem taken_jobs {other : Nat} {entry' : WorkspaceFsJob} (flight : host.fsInflight = some id) :
    (host.taken id group chained).fsJobs other = some entry' ↔
      other ≠ id ∧ host.fsJobs other = some entry' := by
  rw [taken_eq flight]
  by_cases same : other = id
  · simp [same]
  · simp [same]

theorem taken_chained {other : Nat} (flight : host.fsInflight = some id) :
    Chained (host.taken id group none).log other ↔ Chained host.log other := by
  simp [taken_eq flight, Chained]

theorem Base.taken_lined (base : Base none host) (flight : host.fsInflight = some id) :
    Lined none (host.taken id entry.group none) := by
  constructor
  case lined =>
    obtain ⟨rest, line, rising, unchained⟩ := base.lined
    refine ⟨rest, line, rising, ?_⟩
    intro other here
    rw [taken_chained flight]
    exact unchained other here
  case free =>
    intro some_due
    cases some_due
  case dueChained =>
    intro other same
    cases same
  case distinct =>
    exact base.distinct

theorem Base.taken_stocked (base : Base none host) (flight : host.fsInflight = some id) :
    Stocked (host.taken id entry.group none) := by
  have elsewhere : ∀ other ∈ host.fsQueue, other ≠ id := fun _ here => base.aground flight here
  constructor
  case waiting =>
    intro other here
    rw [taken_eq flight] at here
    obtain ⟨entry', job', held', ready, unstarted⟩ := base.waiting other here
    refine ⟨entry', job', (taken_jobs flight).2 ⟨elsewhere other here, held'⟩, ready, ?_⟩
    rw [taken_started flight]
    exact unstarted
  case flying =>
    intro other flying
    rw [taken_eq flight] at flying
    cases flying
  case held =>
    intro other entry' held'
    obtain ⟨ne, held'⟩ := (taken_jobs flight).1 held'
    rw [taken_eq flight]
    refine Or.inl ((base.held other entry' held').resolve_right ?_)
    intro flying
    rw [flight] at flying
    cases flying
    exact ne rfl
  case noted =>
    intro other entry' held'
    obtain ⟨-, held'⟩ := (taken_jobs flight).1 held'
    rw [taken_eq flight]
    exact List.mem_append_left _ (base.noted other entry' held')
  case calm =>
    intro other entry' held'
    obtain ⟨-, held'⟩ := (taken_jobs flight).1 held'
    rw [taken_eq flight]
    simpa using base.calm other entry' held'

theorem Base.taken_accounted (base : Base none host) (flight : host.fsInflight = some id) :
    Accounted none (host.taken id entry.group none) := by
  constructor
  case settled =>
    intro other begun
    rw [taken_started flight] at begun
    rw [taken_eq flight]
    refine Or.inr ?_
    rcases base.settled other begun with flying | ⟨group, chained, landed⟩
    · rw [flight] at flying
      cases flying
      exact ⟨_, _, List.mem_append_right _ (List.mem_singleton_self _)⟩
    · exact ⟨group, chained, List.mem_append_left _ landed⟩
  case accounted =>
    intro other group index marked
    have marked : Mark.queued other group index ∈ host.log := by
      simpa [taken_eq flight] using marked
    rw [taken_started flight]
    exact (base.accounted other group index marked).imp_right
      (Or.imp_right (List.mem_append_left _))
  case chained =>
    intro other chained
    rw [taken_chained flight] at chained
    rw [taken_started flight]
    exact base.chained other chained

/-- The result of the operation in flight is taken. -/
theorem Base.taken (base : Base none host) (flight : host.fsInflight = some id)
    (held : host.fsJobs id = some entry) : Base none (host.taken id entry.group none) where
  toLined := base.taken_lined flight
  toStocked := base.taken_stocked flight
  toAccounted := base.taken_accounted flight
  toLogged := by
    obtain ⟨entry', job, held', -, begun, unlanded⟩ := base.flying id flight
    rw [held] at held'
    cases held'
    rw [taken_eq flight]
    refine base.toLogged.grow 0 rfl (Nat.le_refl _) rfl ?_ ?_ ?_
      (lawful_concat.2 ⟨base.lawful, ⟨entry.index, job, begun⟩, unlanded⟩)
    · intro mark member other named
      rw [List.mem_singleton.1 member] at named
      exact base.ids _ begun other (by simpa [Mark.ids] using named)
    · intro mark member
      rw [List.mem_singleton.1 member]
      exact base.groups (.queued id entry.group entry.index) (base.noted id entry held)
    · intro other group index member
      cases List.mem_singleton.1 member
  toFiled := by
    rw [taken_eq flight]
    have known := base.decided (base.noted id entry held)
    refine base.toFiled.grow rfl rfl rfl rfl (fun buffer probe waits => ⟨waits, by simp⟩) ?_
    intro mark member
    rw [List.mem_singleton.1 member]
    exact known

end Taken

/-- The host once an operation has chained another one: the second is at the head of the queue. -/
def EditHost.chain (host : EditHost) (id : Nat) (entry : WorkspaceFsJob) (job : FsJob)
    (op : WorkspaceFsOp) : EditHost :=
  let next := (host.taken id entry.group (some host.nextFsId)).queueFsJob entry.group entry.index
    job op
  { next with fsQueue := rotate next.fsQueue }

theorem chain_eq {id : Nat} {entry : WorkspaceFsJob} {job : FsJob} {op : WorkspaceFsOp}
    (flight : host.fsInflight = some id) :
    host.chain id entry job op =
      { host with
        nextFsId := host.nextFsId + 1
        fsInflight := none
        fsQueue := host.nextFsId :: host.fsQueue
        fsJobs := Function.update (Function.update host.fsJobs id none) host.nextFsId
          (some ⟨op, entry.group, entry.index, some job⟩)
        log := host.log ++ [Mark.landed id entry.group (some host.nextFsId),
          Mark.queued host.nextFsId entry.group entry.index] } := by
  simp [EditHost.chain, EditHost.taken, EditHost.queueFsJob, EditHost.note, rotate, flight]

section Chain

variable {id : Nat} {entry : WorkspaceFsJob} {job' : FsJob} {op : WorkspaceFsOp}

theorem chain_chained {other : Nat} (flight : host.fsInflight = some id) :
    Chained (host.chain id entry job' op).log other ↔
      Chained host.log other ∨ other = host.nextFsId := by
  simp [chain_eq flight, Chained, exists_or]

theorem chain_started (flight : host.fsInflight = some id) (other : Nat) :
    started (host.chain id entry job' op).log other = started host.log other := by
  simp [chain_eq flight, started]

theorem chain_jobs {other : Nat} {entry' : WorkspaceFsJob} (flight : host.fsInflight = some id) :
    (host.chain id entry job' op).fsJobs other = some entry' ↔
      (other = host.nextFsId ∧ entry' = ⟨op, entry.group, entry.index, some job'⟩) ∨
      (other ≠ host.nextFsId ∧ other ≠ id ∧ host.fsJobs other = some entry') := by
  rw [chain_eq flight]
  by_cases new : other = host.nextFsId
  · simp [new, eq_comm]
  · by_cases same : other = id
    · simp only [Function.update_of_ne new]
      rw [same, Function.update_self]
      simp [same ▸ new]
    · simp [new, same]

theorem Base.chain_elsewhere (base : Base none host) (flight : host.fsInflight = some id) :
    ∀ other ∈ host.fsQueue, other ≠ id ∧ other ≠ host.nextFsId := by
  intro other here
  exact ⟨base.aground flight here, Nat.ne_of_lt (base.queue_lt here)⟩

theorem Base.chain_lined (base : Base none host) (flight : host.fsInflight = some id) :
    Lined (some host.nextFsId) (host.chain id entry job' op) := by
  have elsewhere := base.chain_elsewhere flight
  constructor
  case lined =>
    obtain ⟨rest, line, rising, unchained⟩ := base.lined
    refine ⟨rest, ?_, rising, ?_⟩
    · rw [chain_eq flight]
      exact congrArg _ line
    · intro other here
      rw [chain_chained flight, not_or]
      exact ⟨unchained other here, (elsewhere other (line ▸ here)).2⟩
  case free =>
    intro _
    rw [chain_eq flight]
  case dueChained =>
    intro other same
    cases same
    rw [chain_chained flight]
    exact Or.inr rfl
  case distinct =>
    rw [chain_eq flight]
    exact List.nodup_cons.2 ⟨fun here => (elsewhere _ here).2 rfl, base.distinct⟩

theorem Base.chain_stocked (base : Base none host) (flight : host.fsInflight = some id)
    (held : host.fsJobs id = some entry) : Stocked (host.chain id entry job' op) := by
  have elsewhere := base.chain_elsewhere flight
  constructor
  case waiting =>
    intro other here
    rw [chain_eq flight] at here
    rw [chain_started flight]
    rcases List.mem_cons.1 here with same | here
    · rw [same]
      exact ⟨_, job', (chain_jobs flight).2 (Or.inl ⟨rfl, rfl⟩), rfl, base.unstarted⟩
    · obtain ⟨entry', job'', held', ready, unstarted⟩ := base.waiting other here
      exact ⟨entry', job'', (chain_jobs flight).2
        (Or.inr ⟨(elsewhere other here).2, (elsewhere other here).1, held'⟩), ready, unstarted⟩
  case flying =>
    intro other flying
    rw [chain_eq flight] at flying
    cases flying
  case held =>
    intro other entry' held'
    rw [chain_eq flight]
    rcases (chain_jobs flight).1 held' with ⟨new, -⟩ | ⟨-, ne, held'⟩
    · exact Or.inl (new ▸ List.mem_cons_self)
    · refine Or.inl (List.mem_cons_of_mem _ ((base.held other entry' held').resolve_right ?_))
      intro flying
      rw [flight] at flying
      cases flying
      exact ne rfl
  case noted =>
    intro other entry' held'
    rcases (chain_jobs flight).1 held' with ⟨rfl, rfl⟩ | ⟨-, -, held'⟩
    · simp [chain_eq flight]
    · rw [chain_eq flight]
      exact List.mem_append_left _ (base.noted other entry' held')
  case calm =>
    intro other entry' held'
    rcases (chain_jobs flight).1 held' with ⟨-, rfl⟩ | ⟨-, -, held'⟩
    · simpa [chain_eq flight] using base.calm id entry held
    · simpa [chain_eq flight] using base.calm other entry' held'

theorem Base.chain_accounted (base : Base none host) (flight : host.fsInflight = some id) :
    Accounted (some host.nextFsId) (host.chain id entry job' op) := by
  constructor
  case settled =>
    intro other begun'
    rw [chain_started flight] at begun'
    rw [chain_eq flight]
    refine Or.inr ?_
    rcases base.settled other begun' with flying | ⟨group, chained, landed⟩
    · rw [flight] at flying
      cases flying
      exact ⟨_, _, List.mem_append_right _ List.mem_cons_self⟩
    · exact ⟨group, chained, List.mem_append_left _ landed⟩
  case accounted =>
    intro other group index marked
    rw [chain_started flight]
    rw [chain_eq flight] at marked ⊢
    rcases List.mem_append.1 marked with old | new
    · rcases base.accounted other group index old with here | begun' | troubled
      · exact Or.inl (List.mem_cons_of_mem _ here)
      · exact Or.inr (Or.inl begun')
      · exact Or.inr (Or.inr (List.mem_append_left _ troubled))
    · rcases List.mem_pair.1 new with new | new
      · cases new
      · cases new
        exact Or.inl List.mem_cons_self
  case chained =>
    intro other chained
    rw [chain_started flight]
    rcases (chain_chained flight).1 chained with old | new
    · refine Or.inl ((base.chained other old).resolve_right ?_)
      intro same
      cases same
    · exact Or.inr (congrArg some new.symm)

/-- An operation's result chains another operation, which is due. -/
theorem Base.chain (base : Base none host) (flight : host.fsInflight = some id)
    (held : host.fsJobs id = some entry) :
    Base (some host.nextFsId) (host.chain id entry job' op) where
  toLined := base.chain_lined flight
  toStocked := base.chain_stocked flight held
  toAccounted := base.chain_accounted flight
  toLogged := by
    obtain ⟨entry', job, held', -, begun, unlanded⟩ := base.flying id flight
    rw [held] at held'
    cases held'
    have known : Mark.queued id entry.group entry.index ∈ host.log := base.noted id entry held
    have early := base.ids _ known id (by simp [Mark.ids])
    have below := base.groups _ known
    rw [chain_eq flight]
    refine base.toLogged.grow entry.group rfl (Nat.le_succ _) rfl ?_ ?_ ?_ ?_
    · intro mark member other named
      rcases List.mem_pair.1 member with rfl | rfl
      · rcases List.mem_pair.1 named with rfl | rfl
        · exact Nat.lt_succ_of_lt early
        · exact Nat.lt_succ_self _
      · rw [List.mem_singleton.1 named]
        exact Nat.lt_succ_self _
    · intro mark member
      rcases List.mem_pair.1 member with rfl | rfl
      · exact below
      · exact below
    · intro other group index member
      rcases List.mem_pair.1 member with same | same
      · cases same
      · cases same
        exact ⟨rfl, rfl⟩
    · rw [List.append_cons]
      exact lawful_concat.2 ⟨lawful_concat.2 ⟨base.lawful, ⟨entry.index, job, begun⟩, unlanded⟩,
        trivial⟩
  toFiled := by
    have known := base.decided (base.noted id entry held)
    rw [chain_eq flight]
    refine base.toFiled.grow rfl rfl rfl rfl (fun buffer probe waits => ⟨waits, by simp⟩) ?_
    intro mark member
    rcases List.mem_pair.1 member with rfl | rfl
    · exact known
    · exact known

end Chain

/-! ### Requests -/

/-- The record of a request is changed. -/
theorem Base.record {group : Nat} (base : Base due host)
    (decided : ∀ pending, host.applyEdits group = some pending →
      (change pending).awaitingConfirm = false → host.confirmEdits group = none) :
    Base due (host.record group change) := by
  refine { base with requests := ?_ }
  intro other pending waits
  simp only [EditHost.record] at waits ⊢
  by_cases same : other = group
  · rw [same, Function.update_self] at waits
    obtain ⟨before, was, rfl⟩ := Option.map_eq_some_iff.1 waits
    rw [same]
    exact ⟨(base.requests group before was).1, decided before was⟩
  · rw [Function.update_of_ne same] at waits
    exact base.requests other pending waits

theorem Base.settle {group : Nat} (base : Base due host) : Base due (host.settle group) := by
  rw [EditHost.settle]
  split
  · exact base
  · next pending waits =>
      split
      · exact base
      · next idle =>
          obtain ⟨below, decided⟩ := base.requests group pending waits
          have answered : pending.awaitingConfirm = false := by
            simp only [Bool.or_eq_true, not_or, Bool.not_eq_true] at idle
            exact idle.1
          have closed : Base due
              { host with applyEdits := Function.update host.applyEdits group none } := by
            refine { base with requests := ?_ }
            intro other pending' waits'
            by_cases same : other = group
            · simp [same] at waits'
            · simp only [Function.update_of_ne same] at waits'
              exact base.requests other pending' waits'
          exact closed.note rfl below (decided answered) (fun _ _ _ same => by cases same)
            (fun _ _ _ same => by cases same)

/-! ### Edits -/

theorem Opens.queue {group index : Nat} {job : FsJob} {op : WorkspaceFsOp} (opens : Opens host group)
    (base : Base none host) : Opens (host.queueFsJob group index job op) group := by
  have other : ∀ {id entry}, host.fsJobs id = some entry → id ≠ host.nextFsId := by
    rintro id entry held rfl
    rw [base.no_job] at held
    cases held
  refine ⟨opens.below, opens.decided, ?_, ?_, ?_⟩
  · simpa [EditHost.queueFsJob, EditHost.note] using opens.calm
  · intro id entry flying held
    obtain ⟨entry', -, held', -⟩ := base.flying id flying
    simp only [EditHost.queueFsJob, EditHost.note, Function.update_of_ne (other held')] at held
    exact opens.aground id entry flying held
  · intro idle id member
    simp only [EditHost.queueFsJob, EditHost.note]
    rcases List.mem_append.1 member with old | new
    · obtain ⟨entry, held, same⟩ := opens.own idle id old
      exact ⟨entry, by rw [Function.update_of_ne (other held)]; exact held, same⟩
    · rw [List.mem_singleton.1 new, Function.update_self]
      exact ⟨_, rfl, rfl⟩

/-- A probe is noted. -/
theorem Base.probe {group index : Nat} (base : Base none host) (opens : Opens host group) :
    Base none { host with
      createWrites := Function.update host.createWrites buffer (some (group, index)) } := by
  refine { base with calmProbes := ?_ }
  intro other probe waits
  by_cases same : other = buffer
  · simp only [same, Function.update_self, Option.some.injEq] at waits
    cases waits
    exact ⟨opens.calm, opens.below, opens.decided⟩
  · simp only [Function.update_of_ne same] at waits
    exact base.calmProbes other probe waits

/-- What a loop over the changes of a group keeps. -/
structure Growing (group : Nat) (loop : Loop) : Prop where
  base : Base none loop.host
  opens : Opens loop.host group

theorem Growing.queue {group index : Nat} {job : FsJob} {op : WorkspaceFsOp}
    (growing : Growing group loop) : Growing group (loop.queueFsJob group index job op) :=
  ⟨growing.base.queue growing.opens.below growing.opens.decided growing.opens.calm,
    growing.opens.queue growing.base⟩

theorem Growing.created {group index : Nat} {path : String} (growing : Growing group loop) :
    Growing group (loop.queueCreatedFileWrite session group index buffer path) :=
  ⟨growing.queue.base, growing.queue.opens⟩

theorem Growing.spared {group index : Nat} (growing : Growing group loop) :
    Growing group (loop.spared offtick session group index).1 := by
  rw [Loop.spared]
  split
  · exact growing
  · split
    · exact ⟨growing.base.probe growing.opens, { growing.opens with }⟩
    · exact growing

theorem Growing.take {group index : Nat} {loop' : Loop} {change : WorkspaceChange}
    (growing : Growing group loop)
    (taken : loop.take offtick session group index change = .ok loop') : Growing group loop' := by
  cases change with
  | edits uri edits annotation =>
      rw [Loop.take] at taken
      split at taken
      · cases taken
        exact growing
      · split at taken
        · cases taken
        · cases taken
          exact growing
  | create uri overwrite ignoreIfExists annotation =>
      rw [Loop.take] at taken
      split at taken
      · cases taken
      · split at taken
        · cases taken
          exact growing.queue
        · split at taken
          · have spared : Growing group (loop.spared offtick session group index).1 := growing.spared
            split at taken
            · next found =>
                rw [found] at spared
                cases taken
                exact spared.created
            · next found =>
                rw [found] at spared
                split at taken
                · cases taken
                  exact spared.created
                · cases taken
                  exact spared
          · cases taken
            exact growing.created
  | rename oldUri newUri overwrite ignoreIfExists annotation =>
      rw [Loop.take] at taken
      split at taken
      · split at taken
        · cases taken
          exact growing.queue
        · cases taken
          exact growing.queue
      · cases taken
  | delete uri recursive ignoreIfNotExists annotation =>
      rw [Loop.take] at taken
      split at taken
      · cases taken
      · cases taken
        exact growing.queue

theorem Growing.takeAll {group : Nat} (growing : Growing group loop)
    (changes : List (Nat × WorkspaceChange)) :
    Growing group (loop.takeAll offtick session group changes).1 := by
  induction changes generalizing loop with
  | nil => exact growing
  | cons change changes ih =>
      rw [Loop.takeAll]
      split
      · next taken => exact ih (growing.take taken)
      · exact growing

@[simp] theorem settle_inflight (host : EditHost) (group : Nat) :
    (host.settle group).fsInflight = host.fsInflight := by
  rw [EditHost.settle]
  split
  · rfl
  · split <;> rfl

@[simp] theorem settle_queue (host : EditHost) (group : Nat) :
    (host.settle group).fsQueue = host.fsQueue := by
  rw [EditHost.settle]
  split
  · rfl
  · split <;> rfl

theorem Kept.settle {group : Nat} (kept : Kept host) : Kept (host.settle group) := by
  refine ⟨kept.base.settle, ?_⟩
  rw [settle_inflight, settle_queue]
  exact kept.idle

theorem pump_frame (host : EditHost) : host.pump.confirmEdits = host.confirmEdits ∧
    host.pump.nextGroup = host.nextGroup := by
  have along : ∀ queue, (host.pumpFrom queue).confirmEdits = host.confirmEdits ∧
      (host.pumpFrom queue).nextGroup = host.nextGroup := by
    intro queue
    induction queue with
    | nil => exact ⟨rfl, rfl⟩
    | cons id rest ih =>
        rw [EditHost.pumpFrom]
        split
        · exact ih
        · split
          · exact ih
          · exact ⟨rfl, rfl⟩
  rw [EditHost.pump]
  split
  · exact ⟨rfl, rfl⟩
  · exact along _

/-- An edit of a group gone through, as far as it can be. -/
structure Applied (group : Nat) (result : EditHost × AppliedEdit) : Prop where
  kept : Kept result.1
  below : group < result.1.nextGroup
  decided : result.1.confirmEdits group = none
  answered : result.2.awaitingConfirm = false
  same : result.2.group = group

/-- An edit's changes are gone through. -/
theorem Kept.applyChanges {group : Nat} {changes : List (Nat × WorkspaceChange)}
    (kept : Kept host) (opens : Opens host group) :
    Applied group (host.applyChanges offtick session group changes) := by
  have grown : Growing group (Loop.takeAll offtick session group ⟨host, 0, []⟩ changes).1 :=
    Growing.takeAll ⟨kept.base, opens⟩ changes
  rw [EditHost.applyChanges]
  split
  · next loop index reason gone =>
      rw [gone] at grown
      refine ⟨⟨grown.base.abandon grown.opens.below grown.opens.decided grown.opens.aground, ?_⟩,
        grown.opens.below, grown.opens.decided, rfl, rfl⟩
      intro idle
      apply List.eq_nil_iff_forall_not_mem.2
      intro id member
      obtain ⟨member, others⟩ := mem_dropGroup.1 member
      obtain ⟨entry, held, same⟩ := grown.opens.own idle id member
      exact others entry held same
  · next loop gone =>
      rw [gone] at grown
      obtain ⟨confirms, groups⟩ := pump_frame loop.host
      refine ⟨grown.base.pump, ?_, ?_, rfl, rfl⟩
      · rw [groups]
        exact grown.opens.below
      · rw [confirms]
        exact grown.opens.decided

/-- A parked edit's group is let go. -/
theorem Kept.release {group : Nat} (kept : Kept host)
    (parked : host.confirmEdits group = some edit) :
    Kept { host with confirmEdits := Function.update host.confirmEdits group none } ∧
      Opens { host with confirmEdits := Function.update host.confirmEdits group none } group ∧
      (∀ id entry, host.fsJobs id = some entry → entry.group ≠ group) ∧
      (∀ buffer probe, host.createWrites buffer = some probe → probe.1 ≠ group) := by
  obtain ⟨below, apart⟩ := kept.base.parked group edit parked
  have none_stays : ∀ other, host.confirmEdits other = none →
      Function.update host.confirmEdits group none other = none := by
    intro other decided
    by_cases same : other = group
    · rw [same, Function.update_self]
    · rw [Function.update_of_ne same]
      exact decided
  refine ⟨⟨{ kept.base with calmProbes := ?_, requests := ?_, parked := ?_ }, kept.idle⟩, ?_,
    fun id entry held => apart _ (kept.base.noted id entry held), ?_⟩
  · intro buffer probe waits
    obtain ⟨calm, known, decided⟩ := kept.base.calmProbes buffer probe waits
    exact ⟨calm, known, none_stays _ decided⟩
  · intro other pending waits
    obtain ⟨known, decided⟩ := kept.base.requests other pending waits
    exact ⟨known, fun answered => none_stays _ (decided answered)⟩
  · intro other edit' waits
    by_cases same : other = group
    · simp [same] at waits
    · simp only [Function.update_of_ne same] at waits
      exact kept.base.parked other edit' waits
  · refine ⟨below, Function.update_self .., ?_, ?_, ?_⟩
    · intro troubled
      exact apart _ troubled rfl
    · intro id entry flying held
      exact apart _ (kept.base.noted id entry held)
    · intro idle id member
      rw [kept.idle idle] at member
      cases member
  · rintro buffer probe waits rfl
    rw [(kept.base.calmProbes buffer probe waits).2.2] at parked
    cases parked

theorem Kept.record {group : Nat} (kept : Kept host) (decided : host.confirmEdits group = none) :
    Kept (host.record group change) :=
  ⟨kept.base.record fun _ _ _ => decided, kept.idle⟩

theorem settle_frame (host : EditHost) (group : Nat) :
    (host.settle group).confirmEdits = host.confirmEdits ∧
      (host.settle group).nextGroup = host.nextGroup := by
  rw [EditHost.settle]
  split
  · exact ⟨rfl, rfl⟩
  · split <;> exact ⟨rfl, rfl⟩

/-- What was applied is told to the request. -/
theorem Applied.told {group : Nat} (applied : Applied group result)
    (change : PendingApplyEdit → PendingApplyEdit) :
    Applied group ((result.1.record group change).settle group, result.2) := by
  obtain ⟨confirms, groups⟩ := settle_frame (result.1.record group change) group
  refine ⟨(applied.kept.record applied.decided).settle, ?_, ?_, applied.answered, applied.same⟩
  · rw [groups]
    exact applied.below
  · rw [confirms]
    exact applied.decided

/-- The user's answer to a parked edit. -/
theorem Kept.decision {group : Nat} (kept : Kept host)
    (parked : host.confirmEdits group = some edit) :
    Applied group (host.onDecision offtick session group accepted) := by
  obtain ⟨kept, opens, others, probes⟩ := kept.release parked
  simp only [EditHost.onDecision, parked]
  refine Applied.told ?_ _
  split
  · refine ⟨⟨?_, kept.idle⟩, opens.below, opens.decided, rfl, rfl⟩
    refine kept.base.note rfl opens.below opens.decided ?_ ?_
    · intro id entry held same
      exact others id entry held (Mark.troubled.inj same).symm
    · intro buffer probe waits same
      exact probes buffer probe waits (Mark.troubled.inj same).symm
  · exact kept.applyChanges opens

theorem Kept.onDecision {group : Nat} (kept : Kept host) :
    Kept (host.onDecision offtick session group accepted).1 := by
  cases parked : host.confirmEdits group with
  | none =>
      simp only [EditHost.onDecision, parked]
      exact kept
  | some edit => exact (kept.decision parked).kept

/-- The next group's number is taken. -/
theorem Kept.nextGroup (kept : Kept host) :
    Kept { host with nextGroup := host.nextGroup + 1 } ∧
      Opens { host with nextGroup := host.nextGroup + 1 } host.nextGroup := by
  have base := kept.base
  refine ⟨⟨{ base with groups := ?_, calmProbes := ?_, requests := ?_, parked := ?_ }, kept.idle⟩,
    ?_⟩
  · intro mark member
    exact Nat.lt_succ_of_lt (base.groups mark member)
  · intro buffer probe waits
    obtain ⟨calm, below, decided⟩ := base.calmProbes buffer probe waits
    exact ⟨calm, Nat.lt_succ_of_lt below, decided⟩
  · intro group pending waits
    obtain ⟨below, decided⟩ := base.requests group pending waits
    exact ⟨Nat.lt_succ_of_lt below, decided⟩
  · intro group edit waits
    obtain ⟨below, apart⟩ := base.parked group edit waits
    exact ⟨Nat.lt_succ_of_lt below, apart⟩
  · refine ⟨Nat.lt_succ_self _, ?_, ?_, ?_, ?_⟩
    · cases parked : host.confirmEdits host.nextGroup with
      | none => rfl
      | some edit => exact absurd (base.parked _ edit parked).1 (Nat.lt_irrefl _)
    · intro troubled
      exact Nat.lt_irrefl _ (base.groups _ troubled)
    · intro id entry flying held same
      have below : entry.group < host.nextGroup := base.groups _ (base.noted id entry held)
      exact Nat.ne_of_lt below same
    · intro idle id member
      rw [kept.idle idle] at member
      cases member

/-- An edit is parked on the user's answer. -/
theorem Kept.park (kept : Kept host) : Kept { host with
      nextGroup := host.nextGroup + 1
      confirmEdits := Function.update host.confirmEdits host.nextGroup (some edit) } := by
  have base := kept.nextGroup.1.base
  refine ⟨{ base with calmProbes := ?_, requests := ?_, parked := ?_ }, kept.idle⟩
  · intro buffer probe waits
    obtain ⟨calm, below, decided⟩ := kept.base.calmProbes buffer probe waits
    refine ⟨calm, Nat.lt_succ_of_lt below, ?_⟩
    simp only [Function.update_of_ne (Nat.ne_of_lt below)]
    exact decided
  · intro group pending waits
    obtain ⟨below, decided⟩ := kept.base.requests group pending waits
    refine ⟨Nat.lt_succ_of_lt below, ?_⟩
    intro answered
    simp only [Function.update_of_ne (Nat.ne_of_lt below)]
    exact decided answered
  · intro group edit' waits
    by_cases same : group = host.nextGroup
    · rw [same]
      exact ⟨Nat.lt_succ_self _, fun mark member => Nat.ne_of_lt (kept.base.groups mark member)⟩
    · simp only [Function.update_of_ne same] at waits
      exact base.parked group edit' waits

/-- An edit is applied at once, or parked on the user's answer. -/
theorem Kept.applyEdit (offtick : Bool) (session : Session) (edit : WorkspaceEditData) (asked : Bool)
    (kept : Kept host) : Kept (host.applyEdit offtick session edit asked).1 ∧
      (host.applyEdit offtick session edit asked).2.group <
        (host.applyEdit offtick session edit asked).1.nextGroup ∧
      ((host.applyEdit offtick session edit asked).2.awaitingConfirm = false →
        (host.applyEdit offtick session edit asked).1.confirmEdits
          (host.applyEdit offtick session edit asked).2.group = none) := by
  have applied : ∀ {result : EditHost × AppliedEdit}, Applied host.nextGroup result →
      Kept result.1 ∧ result.2.group < result.1.nextGroup ∧
        (result.2.awaitingConfirm = false → result.1.confirmEdits result.2.group = none) := by
    intro result applied
    rw [applied.same]
    exact ⟨applied.kept, applied.below, fun _ => applied.decided⟩
  rw [EditHost.applyEdit]
  split
  · exact applied (kept.nextGroup.1.applyChanges kept.nextGroup.2)
  · split
    · refine ⟨kept.park, Nat.lt_succ_self _, ?_⟩
      intro answered
      cases answered
    · exact applied (kept.park.decision (Function.update_self ..))

/-- A request is recorded, and answered if it can be. -/
theorem Kept.request {pending : PendingApplyEdit} (kept : Kept result.1)
    (below : result.2.group < result.1.nextGroup)
    (decided : pending.awaitingConfirm = false → result.1.confirmEdits result.2.group = none) :
    Kept (EditHost.settle { result.1 with
      applyEdits := Function.update result.1.applyEdits result.2.group (some pending) }
      result.2.group) := by
  refine Kept.settle ⟨{ kept.base with requests := ?_ }, kept.idle⟩
  intro group pending' waits
  by_cases same : group = result.2.group
  · simp only [same, Function.update_self, Option.some.injEq] at waits
    cases waits
    rw [same]
    exact ⟨below, decided⟩
  · simp only [Function.update_of_ne same] at waits
    exact kept.base.requests group pending' waits

theorem Kept.onApplyEdit {asked : Bool} {request : Request} (kept : Kept host) :
    Kept (host.onApplyEdit offtick session edit asked request) := by
  obtain ⟨kept, below, decided⟩ :=
    kept.applyEdit offtick session edit asked
  exact kept.request below decided

/-! ### Events -/

/-- An operation that was started and not forgotten is the one in flight. -/
theorem Base.flight {id : Nat} {entry : WorkspaceFsJob} (base : Base none host)
    (held : host.fsJobs id = some entry) (begun : started host.log id = true) :
    host.fsInflight = some id := by
  refine (base.held id entry held).resolve_left ?_
  intro member
  obtain ⟨_, _, -, -, unstarted⟩ := base.waiting id member
  rw [begun] at unstarted
  cases unstarted

theorem Kept.onFsResult {id : Nat} {result : Except FsError FsValue} (kept : Kept host)
    (begun : started host.log id = true) : Kept (host.onFsResult id result) := by
  have base := kept.base
  rw [EditHost.onFsResult]
  split
  · next gone =>
      split
      · next flight =>
          obtain ⟨entry, -, held, -⟩ := base.flying id flight
          rw [gone] at held
          cases held
      · exact kept
  · next entry held =>
      have flight := base.flight held begun
      have known := base.noted id entry held
      have decided : host.confirmEdits entry.group = none := by
        cases parked : host.confirmEdits entry.group with
        | none => rfl
        | some edit => exact absurd rfl ((base.parked _ edit parked).2 _ known)
      split
      · next outcome =>
          exact ((base.taken flight held).record fun _ _ _ => decided).settle.pump
      · next job op outcome =>
          exact ((base.chain flight held).record fun _ _ _ => decided).settle.pump
      · next reason outcome =>
          have below : entry.group < host.nextGroup := base.groups _ known
          have dropped := (base.taken flight held).abandon below decided (by
            intro other entry' flying
            rw [EditHost.taken, EditHost.note, if_pos flight] at flying
            cases flying)
          exact (dropped.record fun _ _ _ => decided).settle.pump

theorem Kept.onFsTimeout {delay : Nat} (kept : Kept host) : Kept (host.onFsTimeout delay) := by
  rw [EditHost.onFsTimeout]
  split
  · exact kept
  · next id flight =>
      obtain ⟨entry, job, -, -, begun, -⟩ := kept.base.flying id flight
      exact kept.onFsResult (started_mark begun)

/-- A probe that is dropped leaves the others. -/
theorem Base.dropCreate (base : Base due host) (buffer : Nat) : Base due (host.dropCreate buffer) := by
  refine { base with calmProbes := ?_ }
  intro other probe waits
  by_cases same : other = buffer
  · simp [EditHost.dropCreate, same] at waits
  · simp only [EditHost.dropCreate, Function.update_of_ne same] at waits
    exact base.calmProbes other probe waits

/-- A server that exits leaves the others' requests. -/
theorem Kept.dropRequests (kept : Kept host) (key : String) : Kept (host.dropRequests key) := by
  refine ⟨{ kept.base with requests := ?_ }, kept.idle⟩
  intro group pending held
  exact kept.base.requests group pending (Option.filter_eq_some_iff.1 held).1

theorem Kept.settleCreate {existed : Bool} {path : Option String} (kept : Kept host) :
    Kept (host.settleCreate session buffer existed path) := by
  rw [EditHost.settleCreate]
  split
  · exact kept
  · next group index waits =>
      obtain ⟨calm, below, decided⟩ := kept.base.calmProbes buffer _ waits
      have cleared : Base none
          { host with createWrites := Function.update host.createWrites buffer none } :=
        kept.base.dropCreate buffer
      split
      · exact ⟨cleared, kept.idle⟩
      · split
        · exact ⟨cleared, kept.idle⟩
        · exact (cleared.queue below decided calm).pump

/-- **Step lemma.** -/
theorem step_kept {event : Event} (kept : Kept host)
    (stepped : step offtick host event = some next) : Kept next := by
  cases event with
  | apply session edit asked request =>
      cases request with
      | none =>
          cases stepped
          exact (kept.applyEdit offtick session edit asked).1
      | some request =>
          cases stepped
          exact kept.onApplyEdit
  | decide session group accepted =>
      cases stepped
      exact kept.onDecision
  | result id result =>
      rw [step] at stepped
      split at stepped
      · next begun =>
          cases stepped
          exact kept.onFsResult begun
      · cases stepped
  | timeout delay =>
      cases stepped
      exact kept.onFsTimeout
  | probed session buffer existed path =>
      cases stepped
      exact kept.settleCreate
  | unread buffer =>
      cases stepped
      exact ⟨kept.base.dropCreate buffer, kept.idle⟩
  | exited key =>
      cases stepped
      exact kept.dropRequests key

/-- **Run lemma.** -/
theorem run_kept {events : List Event}
    (reached : Run.run (step offtick) EditHost.new events = some host) : Kept host :=
  Run.run_invariant Kept (fun _ _ _ kept stepped => step_kept kept stepped) new_kept reached

/-! ### Order -/

/-- **One at a time, in order.**  In every run an operation is started once, when everything started
before it has landed; a chained operation is the next one started; and any other is started behind
everything queued before it that is not dropped with its edit. -/
theorem file_ops_in_order {offtick : Bool} {events : List Event} {host : EditHost}
    (reached : Run.run (step offtick) EditHost.new events = some host)
    {before after : List Mark} {id group index : Nat} {job : FsJob}
    (whole : host.log = before ++ .started id group index job :: after) :
    started before id = false ∧
    (∀ other, started before other = true →
      ∃ group' chained, Mark.landed other group' chained ∈ before) ∧
    (∀ other, Chained before other → started before other = true ∨ other = id) ∧
    (¬ Chained before id → ∀ other group' index', Mark.queued other group' index' ∈ before →
      other < id → started before other = true ∨ Mark.troubled group' ∈ before) := by
  have may : MayStart before id group := (run_kept reached).base.lawful _ _ _ whole
  exact ⟨may.once, may.alone, may.next, may.inTurn⟩

/-- The rename runs in front of the delete that was queued before it. -/
theorem file_ops_in_order_chained : ∃ host before, Run.run (step false) EditHost.new renamed =
      some host ∧
    host.log = before ++ [.started (workspaceFsJobBase + 2) 1 0 (.rename "a" "b")] ∧
    started before (workspaceFsJobBase + 2) = false ∧
    started before (workspaceFsJobBase + 1) = false := by
  refine ⟨_, [.queued workspaceFsJobBase 1 0, .queued (workspaceFsJobBase + 1) 1 1,
    .started workspaceFsJobBase 1 0 (.probe "b"),
    .landed workspaceFsJobBase 1 (some (workspaceFsJobBase + 2)),
    .queued (workspaceFsJobBase + 2) 1 0], rfl, rfl, ?_, by decide⟩
  have reached : Run.run (step false) EditHost.new renamed = some _ := rfl
  exact (file_ops_in_order reached rfl).1

/-- **A failure drops its own edit.**  No operation of an edit is started behind its trouble, and
when nothing is in flight every operation queued by an edit without trouble has been started. -/
theorem failure_drops_its_edit {offtick : Bool} {events : List Event} {host : EditHost}
    (reached : Run.run (step offtick) EditHost.new events = some host) :
    (∀ before after id group index job,
      host.log = before ++ .started id group index job :: after →
      Mark.troubled group ∉ before) ∧
    (∀ id group index, Mark.queued id group index ∈ host.log →
      id ∈ host.fsQueue ∨ started host.log id = true ∨ Mark.troubled group ∈ host.log) ∧
    (host.fsInflight = none → host.fsQueue = []) := by
  have kept := run_kept reached
  refine ⟨?_, kept.base.accounted, kept.idle⟩
  intro before after id group index job whole
  have may : MayStart before id group := kept.base.lawful _ _ _ whole
  exact may.calm

/-- The rename fails, and the delete is never started. -/
theorem failure_drops_its_edit_rename : ∃ host, Run.run (step false) EditHost.new
      (renamed ++ [.timeout 10000]) = some host ∧
    Mark.queued (workspaceFsJobBase + 1) 1 1 ∈ host.log ∧
    started host.log (workspaceFsJobBase + 1) = false ∧ host.fsQueue = [] := by
  have reached : Run.run (step false) EditHost.new (renamed ++ [.timeout 10000]) = some _ := rfl
  have drops := failure_drops_its_edit reached
  exact ⟨_, reached, by decide, by decide, drops.2.2 rfl⟩

end Bemtvi.Lsp.FileOps
