/-
Module: Bemtvi.Lsp.WorkspaceEditsLaws
Purpose: A workspace edit means the same however it travels, as long as each of its entries carries one
  annotation, names no document whose bytes are under way, is the only one to wait for one
  whose fetch has yet to be sent, and finds a document on which its edits are made together.
Trusted boundary: none
Main exports: Host.meaning, OneRun, stage_normalize, stage_meaning, Makes, Meets, step_meaning,
  workspace_edits_travel
-/
import Bemtvi.Lsp.WorkspaceEdits

namespace Bemtvi.Lsp.Workspace

open Utf8
open Bemtvi.Core (Buffer ExtmarkStore)
open Run (run Along run_map_along)

variable {Url B E S : Type}

/-! ### Normalization -/

/-- All edits of an entry carry the same annotation, or none does. -/
def OneRun (entry : RawTextDocumentEdit Url) : Prop :=
  ∀ first ∈ entry.edits, ∀ second ∈ entry.edits, first.annotationId = second.annotationId

variable {raws : List RawEdit} {changes : List (Url × List TextEdit)}
  {files : Files Url (Buffer E)} {host : Host Url (Buffer E) (Option PendingReplicaEdit)}
  {id : Nat} {encoding : PositionEncoding}

theorem foldl_pushRun (uri : Url) (change : WorkspaceChange Url)
    (same : ∀ raw ∈ raws, raw.annotationId = change.annotation) :
    raws.foldl (pushRun uri) [change] =
      [{ change with edits := change.edits ++ raws.map (·.edit) }] := by
  induction raws generalizing change with
  | nil => simp
  | cons raw raws ih =>
      have here := same raw List.mem_cons_self
      have pushed : pushRun uri [change] raw =
          [{ change with edits := change.edits ++ [raw.edit] }] := by
        simp [pushRun, here]
      rw [List.foldl_cons, pushed, ih]
      · simp
      · exact fun later member => same later (List.mem_cons_of_mem _ member)

/-- An entry of one annotation is one change. -/
theorem textDocumentEdit_one {entry : RawTextDocumentEdit Url} {raw : RawEdit}
    (one : OneRun entry) (edits : entry.edits = raw :: raws) :
    textDocumentEdit entry = [⟨entry.uri, entry.edits.map (·.edit), raw.annotationId⟩] := by
  have pushed : pushRun entry.uri [] raw = [⟨entry.uri, [raw.edit], raw.annotationId⟩] := rfl
  rw [textDocumentEdit, edits, List.foldl_cons, pushed, foldl_pushRun]
  · rfl
  · intro later member
    apply one
    · rw [edits]
      exact List.mem_cons_of_mem _ member
    · rw [edits]
      exact List.mem_cons_self

section Stage

variable [DecidableEq Url] {files : Files Url B} {defers : Host Url B S → Nat → Bool}

variable {changes : List (Url × List TextEdit)} {host : Host Url B S}

/-- What a change is resolved to does not depend on the changes behind it. -/
theorem stage_congr {changes' : List (Url × List TextEdit)}
    (same : ∀ host : Host Url B S, stage files defers host changes = stage files defers host changes')
    (host : Host Url B S) (change : Url × List TextEdit) :
    stage files defers host (change :: changes) = stage files defers host (change :: changes') := by
  obtain ⟨uri, edits⟩ := change
  simp only [stage, same]

theorem resolve_kept {opened : Host Url B S} {uri : Url} {id : Nat}
    (resolved : host.resolve files uri = some (opened, id)) :
    opened.inFlight = host.inFlight ∧ opened.stash = host.stash := by
  unfold Host.resolve at resolved
  split at resolved
  · cases resolved
    exact ⟨rfl, rfl⟩
  · split at resolved
    · cases resolved
      exact ⟨rfl, rfl⟩
    · obtain ⟨buffer, -, same⟩ := Option.map_eq_some_iff.1 resolved
      cases same
      exact ⟨rfl, rfl⟩

/-- Resolving sends no fetch and stashes nothing. -/
theorem stage_kept {resolved : Host Url B S × List Staged}
    (staged : stage files defers host changes = some resolved) :
    resolved.1.inFlight = host.inFlight ∧ resolved.1.stash = host.stash := by
  induction changes generalizing host resolved with
  | nil =>
      cases staged
      exact ⟨rfl, rfl⟩
  | cons change changes ih =>
      obtain ⟨uri, edits⟩ := change
      rw [stage] at staged
      split at staged
      · exact ih staged
      · split at staged
        · cases staged
        · next opened id found =>
            split at staged
            · obtain ⟨later, rest, same⟩ := Option.map_eq_some_iff.1 staged
              cases same
              have kept := resolve_kept found
              have later_kept := ih rest
              exact ⟨later_kept.1.trans kept.1, later_kept.2.trans kept.2⟩
            · cases staged

end Stage

/-- **Normalization keeps the entries.** Entries of one annotation each are resolved as they are. -/
theorem stage_normalize [LinearOrder Url] {files : Files Url B}
    {defers : Host Url B S → Nat → Bool} {raw : RawWorkspaceEdit Url}
    (one : ∀ entry ∈ raw.documentChanges.getD [], OneRun entry) (host : Host Url B S) :
    stage files defers host ((normalize raw).map fun change => (change.uri, change.edits)) =
      stage files defers host raw.entries := by
  rw [normalize, RawWorkspaceEdit.entries]
  cases given : raw.documentChanges with
  | none =>
      simp only [List.map_map]
      congr 1
      exact List.map_id _
  | some docChanges =>
      rw [given, Option.getD_some] at one
      clear given
      simp only
      induction docChanges generalizing host with
      | nil => rfl
      | cons entry docChanges ih =>
          have later (host : Host Url B S) := ih host
            fun entry member => one entry (List.mem_cons_of_mem _ member)
          rw [List.flatMap_cons, List.map_append, List.map_cons]
          cases edits : entry.edits with
          | nil =>
              have nothing : textDocumentEdit entry = [] := by rw [textDocumentEdit, edits]; rfl
              rw [nothing, List.map_nil, List.nil_append, List.map_nil, later, stage]
              rfl
          | cons first rest =>
              rw [textDocumentEdit_one (one entry List.mem_cons_self) edits, ← edits]
              exact stage_congr later host _

/-! ### What a host stands for -/

/-- The entries that a stash stands for. -/
def waitingOf : Option PendingReplicaEdit → Meaning.Waiting
  | none => []
  | some pending => [(pending.encoding, pending.edits)]

/-- A host, its buffers read as documents and its stashes as the entries that wait. -/
def Host.meaning (host : Host Url (Buffer E) (Option PendingReplicaEdit)) :
    Host Url Text Meaning.Waiting where
  names := host.names
  bufferOf id := (host.bufferOf id).map Buffer.documentText
  modifiable := host.modifiable
  nextId := host.nextId
  pendingOpens := host.pendingOpens
  inFlight := host.inFlight
  stash id := waitingOf (host.stash id)

/-- The files, read as documents. -/
def Files.documents (files : Files Url (Buffer E)) : Files Url Text where
  offtick := files.offtick
  load uri := (files.load uri).map Buffer.documentText
  empty := files.empty.documentText

theorem update_waitingOf (stash : Nat → Option PendingReplicaEdit) (id : Nat)
    (now : Option PendingReplicaEdit) :
    (fun other => waitingOf (Function.update stash id now other)) =
      Function.update (fun other => waitingOf (stash other)) id (waitingOf now) := by
  funext other
  exact Function.apply_update (fun _ => waitingOf) stash id now other

theorem update_documents (bufferOf : Nat → Option (Buffer E)) (id : Nat)
    (now : Option (Buffer E)) :
    (fun other => (Function.update bufferOf id now other).map Buffer.documentText) =
      Function.update (fun other => (bufferOf other).map Buffer.documentText) id
        (now.map Buffer.documentText) := by
  funext other
  exact Function.apply_update (fun _ => Option.map Buffer.documentText) bufferOf id now other

theorem opened_meaning [DecidableEq Url] (host : Host Url (Buffer E) (Option PendingReplicaEdit))
    (uri : Url) (buffer : Buffer E) :
    (host.opened uri buffer).meaning = host.meaning.opened uri buffer.documentText := by
  rw [Host.meaning, Host.meaning, Host.opened, Host.opened]
  simp only [update_documents, Option.map_some]

theorem resolve_meaning [DecidableEq Url] (files : Files Url (Buffer E))
    (host : Host Url (Buffer E) (Option PendingReplicaEdit)) (uri : Url) :
    host.meaning.resolve files.documents uri =
      (host.resolve files uri).map fun resolved => (resolved.1.meaning, resolved.2) := by
  have opened := opened_meaning host uri
  unfold Host.resolve
  cases named : host.names uri with
  | some id =>
      have named' : host.meaning.names uri = some id := named
      rw [named']
      rfl
  | none =>
      have named' : host.meaning.names uri = none := named
      have same : files.documents.offtick = files.offtick := rfl
      rw [named', same]
      simp only
      split
      · have empty : files.documents.empty = files.empty.documentText := rfl
        rw [empty, ← opened]
        rfl
      · have load : files.documents.load uri = (files.load uri).map Buffer.documentText := rfl
        rw [load, Option.map_map, Option.map_map]
        congr 1
        funext buffer
        exact congrArg (·, host.nextId) (opened buffer).symm

/-- Where no named document's fetch is under way, the code sees which documents wait. -/
theorem stage_meaning [DecidableEq Url]
    (landed : ∀ resolved, stage files Host.hasPendingOpen host changes = some resolved →
      ∀ staged ∈ resolved.2, staged.id ∉ host.inFlight) :
    stage files.documents Meaning.waits host.meaning changes =
      (stage files Host.hasPendingOpen host changes).map fun resolved =>
        (resolved.1.meaning, resolved.2) := by
  induction changes generalizing host with
  | nil => rfl
  | cons change changes ih =>
      obtain ⟨uri, edits⟩ := change
      rw [stage] at landed
      rw [stage, stage]
      by_cases empty : edits.isEmpty
      · rw [if_pos empty] at landed
        rw [if_pos empty, if_pos empty]
        exact ih landed
      · rw [if_neg empty] at landed
        rw [if_neg empty, if_neg empty, resolve_meaning]
        cases found : host.resolve files uri with
        | none => rfl
        | some resolved =>
            obtain ⟨opened, id⟩ := resolved
            have kept := (resolve_kept found).1
            simp only [found] at landed
            simp only [Option.map_some]
            have same : opened.meaning.modifiable = opened.modifiable := rfl
            rw [same]
            by_cases open_ : opened.modifiable id
            · rw [if_pos open_] at landed
              rw [if_pos open_, if_pos open_]
              cases rest : stage files Host.hasPendingOpen opened changes with
              | none =>
                  rw [ih, rest]
                  · rfl
                  · intro later found
                    rw [rest] at found
                    cases found
              | some later =>
                  rw [rest] at landed
                  have all := landed _ rfl
                  have here : id ∉ opened.inFlight := by
                    rw [kept]
                    exact all _ List.mem_cons_self
                  have sees : Meaning.waits opened.meaning id = opened.hasPendingOpen id := by
                    simp [Meaning.waits, Host.hasPendingOpen, here, Host.meaning]
                  rw [ih, rest, sees]
                  · rfl
                  · intro other found staged member
                    rw [rest] at found
                    cases found
                    rw [kept]
                    exact all staged (List.mem_cons_of_mem _ member)
            · rw [if_neg open_, if_neg open_]
              rfl

/-! ### Ropes -/

/-- The rope of a buffer ends in a newline. -/
def Roped (buffer : Buffer E) : Prop := buffer.text.getLast? = some '\n'

/-- Every buffer of the host is so. -/
def Host.Roped (host : Host Url (Buffer E) S) : Prop :=
  ∀ id buffer, host.bufferOf id = some buffer → Workspace.Roped buffer

/-- Every buffer that files are opened in is so. -/
structure Files.Roped (files : Files Url (Buffer E)) : Prop where
  load : ∀ uri buffer, files.load uri = some buffer → Workspace.Roped buffer
  empty : Workspace.Roped files.empty

theorem Host.Roped.update {host next : Host Url (Buffer E) S} {now : Option (Buffer E)}
    (roped : host.Roped) (here : ∀ buffer, now = some buffer → Workspace.Roped buffer)
    (bufferOf : next.bufferOf = Function.update host.bufferOf id now) : next.Roped := by
  intro other buffer there
  rw [bufferOf] at there
  by_cases own : other = id
  · rw [own, Function.update_self] at there
    exact here buffer there
  · rw [Function.update_of_ne own] at there
    exact roped other buffer there

theorem resolve_roped [DecidableEq Url] {host opened : Host Url (Buffer E) S} {uri : Url}
    (filesRoped : files.Roped) (roped : host.Roped)
    (resolved : host.resolve files uri = some (opened, id)) : opened.Roped := by
  unfold Host.resolve at resolved
  split at resolved
  · cases resolved
    exact roped
  · split at resolved
    · cases resolved
      exact roped.update (fun buffer same => by cases same; exact filesRoped.empty) rfl
    · obtain ⟨buffer, loaded, same⟩ := Option.map_eq_some_iff.1 resolved
      cases same
      exact roped.update
        (fun buffer' same => by cases same; exact filesRoped.load uri buffer loaded) rfl

theorem stage_roped [DecidableEq Url] {defers : Host Url (Buffer E) S → Nat → Bool}
    {host : Host Url (Buffer E) S} {resolved : Host Url (Buffer E) S × List Staged}
    (filesRoped : files.Roped) (roped : host.Roped)
    (staged : stage files defers host changes = some resolved) : resolved.1.Roped := by
  induction changes generalizing host resolved with
  | nil =>
      cases staged
      exact roped
  | cons change changes ih =>
      obtain ⟨uri, edits⟩ := change
      rw [stage] at staged
      split at staged
      · exact ih roped staged
      · split at staged
        · cases staged
        · next opened id found =>
            split at staged
            · obtain ⟨later, rest, same⟩ := Option.map_eq_some_iff.1 staged
              cases same
              have roped' := ih (resolve_roped filesRoped roped found) rest
              exact roped'
            · cases staged

/-! ### Steps -/

/-- The edits of an entry are made together: on a document whose lines end in `\n` only, they do not
overlap, and the break of the edit that owns the tail is known. -/
structure Makes (encoding : PositionEncoding) (edits : List TextEdit) (document : Text) : Prop where
  plain : '\r' ∉ document
  apart : (edits.map (TextEdit.resolved encoding document)).Pairwise Apart
  tail : TailKnown document (edits.map (TextEdit.resolved encoding document))

theorem plain_of_document {buffer : Buffer E} (roped : Roped buffer)
    (plain : '\r' ∉ buffer.documentText) : '\r' ∉ buffer.text := by
  obtain ⟨phantom, whole, ⟨-, rfl⟩ | ⟨-, rfl⟩⟩ := rope_eq roped
  · rwa [whole, List.append_nil]
  · rw [whole]
    simpa using plain

variable [ExtmarkStore E]

/-- An entry that makes its edits is made as the protocol means it. -/
theorem edit_meaning {edits : List TextEdit} (roped : host.Roped)
    (makes : ∀ document, host.meaning.bufferOf id = some document →
      Makes encoding edits document) :
    ∃ after, host.edit id edits encoding = some after ∧ after.Roped ∧ after.stash = host.stash ∧
      after.meaning = Meaning.make host.meaning id encoding edits := by
  unfold Host.edit
  cases there : host.bufferOf id with
  | none =>
      refine ⟨host, rfl, roped, rfl, ?_⟩
      have there' : host.meaning.bufferOf id = none :=
        congrArg (Option.map Buffer.documentText) there
      rw [Meaning.make, there', Option.map_none, ← there', Function.update_eq_self]
  | some buffer =>
      have there' : host.meaning.bufferOf id = some buffer.documentText :=
        congrArg (Option.map Buffer.documentText) there
      obtain ⟨plain, apart, tail⟩ := makes _ there'
      obtain ⟨after, applied, last, exact_when⟩ := applyTextEdits_spec (roped id buffer there)
        (plain_of_document (roped id buffer there) plain) apart
      simp only [applied, Option.map_some]
      refine ⟨_, rfl, ?_, rfl, ?_⟩
      · exact roped.update (fun _ same => by cases same; exact last) rfl
      · rw [Meaning.make, there', Host.meaning, Host.meaning]
        simp only [update_documents, Option.map_some, exact_when.2 tail]
        rfl

/-- What the entries are made to, one after the other. -/
def EachMakes (encoding : PositionEncoding) :
    Host Url Text Meaning.Waiting → List Staged → Prop
  | _, [] => True
  | host, entry :: entries =>
      (entry.defer = false → ∀ document, host.bufferOf entry.id = some document →
        Makes encoding entry.edits document) ∧
      EachMakes encoding (Meaning.applyEntry encoding host entry) entries

/-- One staged change, none waiting before it. -/
theorem applyStaged_meaning {staged : Staged} (roped : host.Roped)
    (first : staged.defer → host.stash staged.id = none)
    (makes : staged.defer = false → ∀ document, host.meaning.bufferOf staged.id = some document →
      Makes encoding staged.edits document) :
    ∃ after, applyStaged encoding host staged = some after ∧ after.Roped ∧
      (∀ id, (staged.defer → id ≠ staged.id) → after.stash id = host.stash id) ∧
      after.meaning = Meaning.applyEntry encoding host.meaning staged := by
  unfold Meaning.applyEntry applyStaged
  by_cases waits : staged.defer
  · rw [if_pos waits, if_pos waits]
    refine ⟨_, rfl, roped, fun id other => Function.update_of_ne (other waits) _ _, ?_⟩
    have none_yet : host.meaning.stash staged.id = [] := by
      have same : host.meaning.stash staged.id = waitingOf (host.stash staged.id) := rfl
      rw [same, first waits]
      rfl
    rw [none_yet, first waits, Host.meaning, Host.meaning]
    simp only [update_waitingOf]
    rfl
  · rw [if_neg waits, if_neg waits]
    obtain ⟨after, made, roped', stash, meaning⟩ :=
      edit_meaning roped (makes (Bool.eq_false_iff.2 waits))
    exact ⟨after, made, roped', fun id _ => congrFun stash id, meaning⟩

/-- Staged changes, each the first to wait for its document. -/
theorem foldlM_meaning {staged : List Staged} (roped : host.Roped)
    (first : ∀ change ∈ staged, change.defer → host.stash change.id = none)
    (apart : staged.Pairwise fun a b => a.defer → b.defer → a.id ≠ b.id)
    (makes : EachMakes encoding host.meaning staged) :
    ∃ after, staged.foldlM (applyStaged encoding) host = some after ∧ after.Roped ∧
      after.meaning = staged.foldl (Meaning.applyEntry encoding) host.meaning := by
  induction staged generalizing host with
  | nil => exact ⟨host, rfl, roped, rfl⟩
  | cons change staged ih =>
      obtain ⟨here, later⟩ := List.pairwise_cons.1 apart
      obtain ⟨after, made, roped', stash, meaning⟩ :=
        applyStaged_meaning roped (first change List.mem_cons_self) makes.1
      rw [List.foldlM_cons, made, List.foldl_cons, ← meaning]
      apply ih roped' _ later
      · rw [meaning]
        exact makes.2
      · intro other member waits
        rw [stash other.id fun waits' => (here other member waits' waits).symm]
        exact first other (List.mem_cons_of_mem _ member) waits

/-- The landing makes what waited. -/
theorem applyPending_meaning (id : Nat) (roped : host.Roped)
    (makes : ∀ pending, host.stash id = some pending → host.modifiable id →
      ∀ document, host.meaning.bufferOf id = some document →
        Makes pending.encoding pending.edits document) :
    ∃ after, applyPendingReplicaEdit host id = some after ∧ after.Roped ∧
      after.meaning = Meaning.applyWaiting host.meaning id := by
  have cleared : ({ host.meaning with stash := Function.update host.meaning.stash id [] } :
      Host Url Text Meaning.Waiting) =
      ({ host with stash := Function.update host.stash id none } :
        Host Url (Buffer E) (Option PendingReplicaEdit)).meaning := by
    rw [Host.meaning, Host.meaning]
    simp only [update_waitingOf]
    rfl
  have same : host.meaning.modifiable = host.modifiable := rfl
  unfold Meaning.applyWaiting applyPendingReplicaEdit
  simp only [cleared]
  have waited : host.meaning.stash id = waitingOf (host.stash id) := rfl
  rw [waited]
  cases stashed : host.stash id with
  | none =>
      have nothing : Function.update host.stash id none = host.stash :=
        Function.update_eq_self_iff.2 stashed.symm
      rw [nothing]
      exact ⟨host, rfl, roped, by simp [waitingOf]⟩
  | some pending =>
      simp only [waitingOf, List.foldl_cons, List.foldl_nil]
      by_cases writable : host.modifiable id = true
      · have cleared_roped : Host.Roped { host with stash := Function.update host.stash id none } :=
          roped
        have made := edit_meaning cleared_roped (makes pending stashed writable)
        obtain ⟨after, made, roped', -, meaning⟩ := made
        refine ⟨after, ?_, roped', ?_⟩
        · rw [if_pos writable]
          exact made
        · rw [meaning, if_pos]
          exact writable
      · refine ⟨_, if_neg writable, roped, ?_⟩
        rw [if_neg]
        exact writable

/-! ### Runs -/

/-- Each entry of an edit carries one annotation, names no document whose bytes are under way, is the
first to wait for the document it names if its fetch is not sent yet, and makes its edits together
on the document it finds, at once or when its bytes land. -/
def Meets [LinearOrder Url] (files : Files Url (Buffer E))
    (host : Host Url (Buffer E) (Option PendingReplicaEdit)) : Event Url E → Prop
  | .edit encoding raw =>
      (∀ entry ∈ raw.documentChanges.getD [], OneRun entry) ∧
      ∀ resolved, stage files Host.hasPendingOpen host raw.entries = some resolved →
        (∀ staged ∈ resolved.2, staged.id ∉ host.inFlight) ∧
        (∀ staged ∈ resolved.2, staged.defer → host.stash staged.id = none) ∧
        (resolved.2.Pairwise fun a b => a.defer → b.defer → a.id ≠ b.id) ∧
        EachMakes encoding resolved.1.meaning resolved.2
  | .land id buffer => Roped buffer ∧
      ∀ pending, host.stash id = some pending → host.modifiable id →
        Makes pending.encoding pending.edits buffer.documentText
  | .change _ buffer _ => ∀ now, buffer = some now → Roped now
  | _ => True

/-- One step under the condition does what the protocol means, and leaves ropes. -/
theorem step_meaning [LinearOrder Url] (filesRoped : files.Roped) (roped : host.Roped)
    {event : Event Url E} (meets : Meets files host event) :
    Meaning.step files.documents host.meaning event = (step files host event).map Host.meaning ∧
      ∀ next, step files host event = some next → next.Roped := by
  cases event with
  | edit encoding raw =>
      obtain ⟨one, apart⟩ := meets
      have staged := stage_meaning fun resolved found => (apart resolved found).1
      rw [Meaning.step, step, applyWorkspaceChanges, stage_normalize one, staged]
      cases found : stage files Host.hasPendingOpen host raw.entries with
      | none => exact ⟨rfl, fun _ none_taken => by cases none_taken⟩
      | some resolved =>
          obtain ⟨-, first, distinct, makes⟩ := apart resolved found
          rw [← (stage_kept found).2] at first
          obtain ⟨after, made, roped', meaning⟩ :=
            foldlM_meaning (stage_roped filesRoped roped found) first distinct makes
          rw [Option.map_some, Option.map_some, Option.bind_some, made, Option.map_some, meaning]
          exact ⟨rfl, fun next taken => by cases taken; exact roped'⟩
  | drain => exact ⟨rfl, fun next taken => by cases taken; exact roped⟩
  | land id buffer =>
      obtain ⟨landed, makes⟩ := meets
      have filled : (host.filled id buffer).meaning =
          host.meaning.filled id buffer.documentText := by
        rw [Host.meaning, Host.meaning, Host.filled, Host.filled]
        simp only [update_documents, Option.map_some]
        rfl
      have there : (host.filled id buffer).meaning.bufferOf id = some buffer.documentText := by
        rw [filled]
        exact Function.update_self ..
      have filled_roped : (host.filled id buffer).Roped :=
        roped.update (fun _ same => by cases same; exact landed) rfl
      obtain ⟨after, made, roped', meaning⟩ := applyPending_meaning id filled_roped
        (fun pending stashed writable document here => by
          cases there.symm.trans here
          exact makes pending stashed writable)
      have same : host.meaning.inFlight = host.inFlight := rfl
      rw [Meaning.step, step, same]
      split
      · rw [made, Option.map_some, meaning, filled]
        exact ⟨rfl, fun next taken => by cases taken; exact roped'⟩
      · exact ⟨rfl, fun _ none_taken => by cases none_taken⟩
  | fail id =>
      have same : host.meaning.inFlight = host.inFlight := rfl
      rw [Meaning.step, step, same]
      split
      · refine ⟨?_, fun next taken => by cases taken; exact roped⟩
        rw [Option.map_some, Host.meaning, Host.meaning]
        simp only [update_waitingOf]
        rfl
      · exact ⟨rfl, fun _ none_taken => by cases none_taken⟩
  | change id buffer modifiable =>
      refine ⟨?_, fun next taken => by cases taken; exact roped.update meets rfl⟩
      rw [Meaning.step, step, Option.map_some, Host.meaning, Host.meaning, Host.changed, Host.changed]
      simp only [update_documents]

/-- **A workspace edit means the same however it travels.**  Whatever edits servers send, in whatever
encodings, and whenever the bytes of the documents land: each document gets the entries that name
it one after the other, the edits of each all at once in the places of the document it finds and in
its own server's encoding, as long as an edit's entries carry one annotation each, name no document
whose bytes are under way, are alone to wait for a document whose fetch is not sent yet, and make
their edits together on the document they find. -/
theorem workspace_edits_travel [LinearOrder Url] {files : Files Url (Buffer E)}
    {host : Host Url (Buffer E) (Option PendingReplicaEdit)} {events : List (Event Url E)}
    (filesRoped : files.Roped) (roped : host.Roped)
    (along : Along (Meets files) (step files) host events) :
    run (Meaning.step files.documents) host.meaning events =
      (run (step files) host events).map Host.meaning :=
  run_map_along Host.Roped Host.meaning (fun _ _ roped meets => (step_meaning filesRoped roped meets).1)
    (fun _ _ next roped meets => (step_meaning filesRoped roped meets).2 next) roped along

/-- A session whose files are all remote and one document open, of the line `ab`. -/
def remote : Files String (Buffer Unit) where
  offtick := true
  load _ := none
  empty := Buffer.ofText ['\n']

def openHost : Host String (Buffer Unit) (Option PendingReplicaEdit) where
  names uri := if uri = "open" then some 0 else none
  bufferOf _ := some (Buffer.ofText ['a', 'b', '\n'])
  modifiable _ := true
  nextId := 1
  pendingOpens := []
  inFlight := []
  stash _ := none

/-- A text put into the first line of a document, under an annotation. -/
def inserts (column : Nat) (text : List Char) (tag : Option String) : RawEdit :=
  ⟨⟨⟨⟨0, column⟩, ⟨0, column⟩⟩, text⟩, tag⟩

/-- Two texts put into an open document, under one annotation. -/
def twoTexts : List (Event String Unit) :=
  [.edit .utf8 ⟨none, some [⟨"open", [inserts 0 ['x'] none, inserts 1 ['y'] none]⟩]⟩]

/-- They get there. -/
theorem workspace_edits_travel_open :
    run (Meaning.step remote.documents) openHost.meaning twoTexts =
      (run (step remote) openHost twoTexts).map Host.meaning := by
  apply workspace_edits_travel
  · constructor
    · intro uri buffer loaded
      cases loaded
    · rfl
  · intro id buffer there
    cases there
    rfl
  refine ⟨⟨?_, ?_⟩, fun _ _ => trivial⟩
  · simp [OneRun, inserts]
  · intro resolved found
    have computed : stage remote Host.hasPendingOpen openHost
        [("open", [(inserts 0 ['x'] none).edit, (inserts 1 ['y'] none).edit])] =
        some (openHost,
          [⟨0, [(inserts 0 ['x'] none).edit, (inserts 1 ['y'] none).edit], false⟩]) := rfl
    cases computed.symm.trans found
    refine ⟨by simp [openHost], by simp, by simp, ?_, trivial⟩
    rintro - document ⟨⟩
    exact ⟨by decide, by decide, by decide⟩

/-- An entry of two annotations should put `x` and `y` about the `a`, and puts both in front of it; and
an edit that arrives while the bytes of its document are under way is gone when they land. -/
theorem annotations_split_entry :
    let raw : RawWorkspaceEdit String :=
      ⟨none, some [⟨"open", [inserts 0 ['x'] (some "sure"), inserts 1 ['y'] (some "ask")]⟩]⟩
    let far (text : List Char) : RawWorkspaceEdit String :=
      ⟨none, some [⟨"far", [inserts 0 text none]⟩]⟩
    let landing : List (Event String Unit) := [.edit .utf8 (far ['x']), .drain,
      .edit .utf8 (far ['y']), .land 1 (Buffer.ofText ['a', '\n'])]
    ((run (Meaning.step remote.documents) openHost.meaning
      [(.edit .utf8 raw : Event String Unit)]).bind fun host => host.bufferOf 0) =
        some ['x', 'a', 'y', 'b', '\n'] ∧
    ((run (step remote) openHost [.edit .utf8 raw]).bind fun host =>
      (host.bufferOf 0).map Buffer.documentText) = some ['x', 'y', 'a', 'b', '\n'] ∧
    ((run (Meaning.step remote.documents) openHost.meaning landing).bind fun host =>
      host.bufferOf 1) = some ['y', 'x', 'a', '\n'] ∧
    ((run (step remote) openHost landing).bind fun host =>
      (host.bufferOf 1).map Buffer.documentText) = some ['x', 'a', '\n'] := by
  decide +kernel

end Bemtvi.Lsp.Workspace
