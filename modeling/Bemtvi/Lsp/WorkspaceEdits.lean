/-
Module: Bemtvi.Lsp.WorkspaceEdits
Purpose: A workspace edit on its way into the buffers: the runs a document's edits are split into, the
  documents opened for them, the edits made at once, and the edits of a document whose bytes are
  still on their way.  And what it means: each document's entries, one after the other, the edits of
  an entry all at once in the places of the document it finds.
Trusted boundary: human-reviewed model of bemtvi-lsp/src/convert.rs:143-284, of
  bemtvi-server/src/lsp/edit.rs:434-591 and 1288-1324 and of lifecycle.rs:55-155 and 294-345, in a
  session with remote files; text edits only, accepted by the user; the file operations, the undo
  step and the messages are left out
Main exports: normalize, Host, resolve, stage, applyWorkspaceChanges, land, step, Meaning.step
-/
import Bemtvi.Lsp.TextEditsLaws
import Bemtvi.Lib.Run

namespace Bemtvi.Lsp.Workspace

open Utf8
open Bemtvi.Core (Buffer ExtmarkStore)

/-! ### Normalization -/

/-- A text edit with the `annotationId` it carries. -/
structure RawEdit where
  edit : TextEdit
  annotationId : Option String
deriving Repr, DecidableEq

/-- One entry of `documentChanges`. -/
structure RawTextDocumentEdit (Url : Type) where
  uri : Url
  edits : List RawEdit

/-- `changes` is a map: the list of its entries. -/
structure RawWorkspaceEdit (Url : Type) where
  changes : Option (List (Url × List TextEdit))
  documentChanges : Option (List (RawTextDocumentEdit Url))

/-- `WorkspaceChange::Edits`. -/
structure WorkspaceChange (Url : Type) where
  uri : Url
  edits : List TextEdit
  annotation : Option String

variable {Url : Type}

/-- One turn of the loop of `text_document_edit`. -/
def pushRun (uri : Url) (out : List (WorkspaceChange Url)) (raw : RawEdit) :
    List (WorkspaceChange Url) :=
  match out.getLast? with
  | some run =>
      -- Same annotation as the run being built: keep them together.
      if run.annotation = raw.annotationId then
        out.dropLast ++ [{ run with edits := run.edits ++ [raw.edit] }]
      else out ++ [⟨uri, [raw.edit], raw.annotationId⟩]
  | none => out ++ [⟨uri, [raw.edit], raw.annotationId⟩]

/-- `text_document_edit`: consecutive runs, one for each annotation. -/
def textDocumentEdit (entry : RawTextDocumentEdit Url) : List (WorkspaceChange Url) :=
  entry.edits.foldl (pushRun entry.uri) []

/-- The `changes` map in the order of its names. -/
def sortedChanges [LinearOrder Url] (raw : RawWorkspaceEdit Url) : List (Url × List TextEdit) :=
  (raw.changes.getD []).insertionSort fun a b => a.1 ≤ b.1

/-- `try_normalize_workspace_edit_value`, behind the parse. -/
def normalize [LinearOrder Url] (raw : RawWorkspaceEdit Url) : List (WorkspaceChange Url) :=
  match raw.documentChanges with
  | some docChanges => docChanges.flatMap textDocumentEdit
  | none => (sortedChanges raw).map fun change => ⟨change.1, change.2, none⟩

/-! ### The host

What a document is kept as, a buffer or its text, is a parameter. -/

/-- The files a session reaches. -/
structure Files (Url B : Type) where
  /-- `host_fs_offtick`. -/
  offtick : Bool
  /-- `ensure_buffer_loaded`; `none` when the file could not be opened. -/
  load : Url → Option B
  /-- A replica before its bytes. -/
  empty : B

/-- The buffers of an editor, and what is kept for each until its bytes are there. -/
structure Host (Url B S : Type) where
  /-- `buffer_id_for_uri` and `find_buffer_by_path`. -/
  names : Url → Option Nat
  bufferOf : Nat → Option B
  modifiable : Nat → Bool
  nextId : Nat
  /-- `pending_opens`: the fetches not sent yet. -/
  pendingOpens : List Nat
  /-- The fetches sent whose bytes are not there yet. -/
  inFlight : List Nat
  stash : Nat → S

variable {B E S : Type}

/-- `has_pending_open`. -/
def Host.hasPendingOpen (host : Host Url B S) (id : Nat) : Bool := id ∈ host.pendingOpens

/-- A buffer opened under a name. -/
def Host.opened [DecidableEq Url] (host : Host Url B S) (uri : Url) (buffer : B) :
    Host Url B S :=
  { host with
    names := Function.update host.names uri (some host.nextId)
    bufferOf := Function.update host.bufferOf host.nextId (some buffer)
    modifiable := Function.update host.modifiable host.nextId true
    nextId := host.nextId + 1 }

/-- The open buffer of a document, or else its file brought into one. -/
def Host.resolve [DecidableEq Url] (files : Files Url B) (host : Host Url B S) (uri : Url) :
    Option (Host Url B S × Nat) :=
  match host.names uri with
  | some id => some (host, id)
  | none =>
      if files.offtick then
        -- `enqueue_replica_open`.
        some ({ host.opened uri files.empty with
          pendingOpens := host.pendingOpens ++ [host.nextId] }, host.nextId)
      else (files.load uri).map fun buffer => (host.opened uri buffer, host.nextId)

/-- A change resolved, and whether it is to wait. -/
structure Staged where
  id : Nat
  edits : List TextEdit
  defer : Bool

/-- Every document resolved before any edit is made; `none` when one of them is refused. -/
def stage [DecidableEq Url] (files : Files Url B) (defers : Host Url B S → Nat → Bool)
    (host : Host Url B S) : List (Url × List TextEdit) → Option (Host Url B S × List Staged)
  | [] => some (host, [])
  | (uri, edits) :: changes =>
      if edits.isEmpty then stage files defers host changes
      else
        match host.resolve files uri with
        | none => none
        | some (host, id) =>
            if host.modifiable id then
              (stage files defers host changes).map fun later =>
                (later.1, ⟨id, edits, defers host id⟩ :: later.2)
            else none

/-- The fetches are sent. -/
def Host.drain (host : Host Url B S) : Host Url B S :=
  { host with pendingOpens := [], inFlight := host.inFlight ++ host.pendingOpens }

/-- A fetch is over. -/
def Host.settled (host : Host Url B S) (id : Nat) : Host Url B S :=
  { host with inFlight := host.inFlight.filter (· ≠ id) }

/-- The bytes are in their buffer. -/
def Host.filled (host : Host Url B S) (id : Nat) (buffer : B) : Host Url B S :=
  { host.settled id with bufferOf := Function.update host.bufferOf id (some buffer) }

def Host.changed (host : Host Url B S) (id : Nat) (buffer : Option B) (modifiable : Bool) :
    Host Url B S :=
  { host with
    bufferOf := Function.update host.bufferOf id buffer
    modifiable := Function.update host.modifiable id modifiable }

/-! ### What the code does -/

/-- The edits stashed for a replica. -/
structure PendingReplicaEdit where
  edits : List TextEdit
  encoding : PositionEncoding

/-- The entry of `pending_replica_edits`, extended: its encoding is the first edit's. -/
def extend (stashed : Option PendingReplicaEdit) (edits : List TextEdit)
    (encoding : PositionEncoding) : Option PendingReplicaEdit :=
  let entry := stashed.getD ⟨[], encoding⟩
  some { entry with edits := entry.edits ++ edits }

/-- One event of a session. -/
inductive Event (Url E : Type) where
  /-- A server's edit arrives, and nothing of it is refused. -/
  | edit (encoding : PositionEncoding) (raw : RawWorkspaceEdit Url)
  /-- `drain_pending_opens`: the fetches are sent. -/
  | drain
  /-- The bytes of a fetch land and fill the buffer. -/
  | land (id : Nat) (buffer : Buffer E)
  /-- A fetch fails. -/
  | fail (id : Nat)
  /-- Whatever else happens to a buffer. -/
  | change (id : Nat) (buffer : Option (Buffer E)) (modifiable : Bool)

section Code

variable [ExtmarkStore E]

/-- A document's text edits made in its buffer; `none` for a panic. -/
def Host.edit (host : Host Url (Buffer E) S) (id : Nat) (edits : List TextEdit)
    (encoding : PositionEncoding) : Option (Host Url (Buffer E) S) :=
  match host.bufferOf id with
  | none => some host
  | some buffer => (applyTextEdits buffer edits encoding).map fun buffer =>
      { host with bufferOf := Function.update host.bufferOf id (some buffer) }

/-- One turn of the loop over the staged changes. -/
def applyStaged (encoding : PositionEncoding)
    (host : Host Url (Buffer E) (Option PendingReplicaEdit)) (staged : Staged) :
    Option (Host Url (Buffer E) (Option PendingReplicaEdit)) :=
  if staged.defer then
    let stashed := extend (host.stash staged.id) staged.edits encoding
    some { host with stash := Function.update host.stash staged.id stashed }
  else host.edit staged.id staged.edits encoding

/-- `apply_workspace_changes`. -/
def applyWorkspaceChanges [DecidableEq Url] (files : Files Url (Buffer E))
    (host : Host Url (Buffer E) (Option PendingReplicaEdit)) (changes : List (WorkspaceChange Url))
    (encoding : PositionEncoding) : Option (Host Url (Buffer E) (Option PendingReplicaEdit)) :=
  (stage files Host.hasPendingOpen host (changes.map fun change => (change.uri, change.edits))).bind
    fun resolved => resolved.2.foldlM (applyStaged encoding) resolved.1

/-- `apply_pending_replica_edit`. -/
def applyPendingReplicaEdit (host : Host Url (Buffer E) (Option PendingReplicaEdit)) (id : Nat) :
    Option (Host Url (Buffer E) (Option PendingReplicaEdit)) :=
  match host.stash id with
  | none => some host
  | some pending =>
      let host := { host with stash := Function.update host.stash id none }
      if host.modifiable id then host.edit id pending.edits pending.encoding else some host

/-- One event; `none` for an edit that is refused or panics, and for bytes nobody fetched. -/
def step [LinearOrder Url] (files : Files Url (Buffer E))
    (host : Host Url (Buffer E) (Option PendingReplicaEdit)) :
    Event Url E → Option (Host Url (Buffer E) (Option PendingReplicaEdit))
  | .edit encoding raw => applyWorkspaceChanges files host (normalize raw) encoding
  | .drain => some host.drain
  | .land id buffer =>
      if id ∈ host.inFlight then applyPendingReplicaEdit (host.filled id buffer) id else none
  | .fail id =>
      if id ∈ host.inFlight then
        some { host.settled id with stash := Function.update host.stash id none }
      else none
  | .change id buffer modifiable => some (host.changed id buffer modifiable)

end Code

/-! ### What an edit means -/

/-- The entries of a workspace edit: a document, and the edits made to it together. -/
def RawWorkspaceEdit.entries [LinearOrder Url] (raw : RawWorkspaceEdit Url) :
    List (Url × List TextEdit) :=
  match raw.documentChanges with
  | some docChanges => docChanges.map fun entry => (entry.uri, entry.edits.map (·.edit))
  | none => sortedChanges raw

namespace Meaning

/-- The entries that wait for a document, each in its own server's encoding. -/
abbrev Waiting := List (PositionEncoding × List TextEdit)

/-- A document waits until its bytes are there. -/
def waits (host : Host Url Text Waiting) (id : Nat) : Bool :=
  id ∈ host.pendingOpens ∨ id ∈ host.inFlight

/-- A document with the edits of an entry, all at once in the places of the document. -/
def together (encoding : PositionEncoding) (edits : List TextEdit) (document : Text) : Text :=
  edited (edits.map (TextEdit.resolved encoding document)) 0 document

/-- An entry made to its document. -/
def make (host : Host Url Text S) (id : Nat) (encoding : PositionEncoding)
    (edits : List TextEdit) : Host Url Text S :=
  { host with
    bufferOf := Function.update host.bufferOf id
      ((host.bufferOf id).map (together encoding edits)) }

/-- One entry: made to its document, or kept behind the entries that wait for it. -/
def applyEntry (encoding : PositionEncoding) (host : Host Url Text Waiting) (entry : Staged) :
    Host Url Text Waiting :=
  if entry.defer then
    let waiting := host.stash entry.id ++ [(encoding, entry.edits)]
    { host with stash := Function.update host.stash entry.id waiting }
  else make host entry.id encoding entry.edits

/-- The entries that waited, one after the other. -/
def applyWaiting (host : Host Url Text Waiting) (id : Nat) : Host Url Text Waiting :=
  let waited := host.stash id
  let host := { host with stash := Function.update host.stash id [] }
  if host.modifiable id then waited.foldl (fun host entry => make host id entry.1 entry.2) host
  else host

/-- One event, as the protocol means it; `none` for an edit that is refused, and for bytes nobody
fetched. -/
def step [LinearOrder Url] (files : Files Url Text) (host : Host Url Text Waiting) :
    Event Url E → Option (Host Url Text Waiting)
  | .edit encoding raw => (stage files waits host raw.entries).map fun resolved =>
      resolved.2.foldl (applyEntry encoding) resolved.1
  | .drain => some host.drain
  | .land id buffer =>
      if id ∈ host.inFlight then some (applyWaiting (host.filled id buffer.documentText) id)
      else none
  | .fail id =>
      if id ∈ host.inFlight then
        some { host.settled id with stash := Function.update host.stash id [] }
      else none
  | .change id buffer modifiable =>
      some (host.changed id (buffer.map Buffer.documentText) modifiable)

end Meaning

end Bemtvi.Lsp.Workspace
