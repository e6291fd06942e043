/-
Module: Bemtvi.Lsp.Protocol
Purpose: The requests an editor makes of a language server, the replies it gets, and the empty
  reply a request is settled with when no server answers it.
Trusted boundary: human-reviewed model of protocol.rs:560-760 and manager.rs:623-672; `α` stands for
  what a request or a reply carries
Main exports: LspRequest, LspReply, degradeRequest, transportError
-/
import Mathlib

namespace Bemtvi.Lsp

abbrev ReqToken := Nat

inductive LspRequest (α : Type) where
  | definition (params : α)
  | declaration (params : α)
  | typeDefinition (params : α)
  | implementation (params : α)
  | references (params : α)
  | documentSymbol (params : α)
  | workspaceSymbol (params : α)
  | hover (params : α)
  | signatureHelp (params : α)
  | completion (params : α)
  | formatting (params : α)
  | rename (params : α)
  | codeAction (params : α)
  | resolveCodeAction (params : α)
  | resolveCompletion (params : α)
  | semanticTokensFull (params : α)
  | semanticTokensDelta (params : α)
  | inlayHint (params : α)
  | resolveInlayHint (params : α)
  | foldingRange (params : α)
  /-- `client:request`, by method name. -/
  | raw (method : String) (params : α)

inductive DocFormat where
  | markdown
  | plaintext

inductive SemanticTokensData (α : Type) where
  | full (resultId : Option String) (tokens : List α)
  | delta (resultId : Option String) (edits : List α)

inductive LspReply (α : Type) where
  | locations (locations : List α)
  | symbols (symbols : List α)
  | hover (lines : List String) (format : DocFormat)
  | signatureHelp (signature : Option α)
  | completion (isIncomplete : Bool) (items : List α)
  | edits (edits : List α)
  | workspaceEdit (changes : List α)
  | codeActions (actions : List α)
  | resolvedCodeAction (edit : Option α)
  | resolvedCompletion (documentation : Option String) (format : DocFormat)
      (detail : Option String)
  | semanticTokens (data : SemanticTokensData α)
  | inlayHints (hints : List α)
  | resolvedInlayHint (label : Option String)
  | folds (folds : List α)
  | raw (result : Except String α)

variable {α : Type}

/-- `empty_semantic_tokens`. -/
def emptySemanticTokens : SemanticTokensData α := .full none []

/-- The degraded reply of a request whose server dies before it could be issued. -/
def degradeRequest (req : LspRequest α) (reason : String) : LspReply α :=
  match req with
  | .definition _ | .declaration _ | .typeDefinition _ | .implementation _ | .references _ =>
      .locations []
  | .documentSymbol _ | .workspaceSymbol _ => .symbols []
  | .hover _ => .hover [] .markdown
  | .signatureHelp _ => .signatureHelp none
  | .completion _ => .completion false []
  | .formatting _ => .edits []
  | .rename _ => .workspaceEdit []
  | .codeAction _ => .codeActions []
  | .resolveCodeAction _ => .resolvedCodeAction none
  | .resolveCompletion _ => .resolvedCompletion none .markdown none
  | .semanticTokensFull _ | .semanticTokensDelta _ => .semanticTokens emptySemanticTokens
  | .inlayHint _ => .inlayHints []
  | .resolveInlayHint _ => .resolvedInlayHint none
  | .foldingRange _ => .folds []
  | .raw method _ => .raw (.error s!"{reason} before answering {method}")

/-- What an issued request is distilled to when its socket fails: the same empty reply, and for a
raw one the socket's own error. -/
def transportError (req : LspRequest α) (error : String) : LspReply α :=
  match req with
  | .raw _ _ => .raw (.error error)
  | _ => degradeRequest req error

end Bemtvi.Lsp
