import Bemtvi.Lib.Resumable
import Bemtvi.Lib.Msgpack
import Bemtvi.Rpc.ScanFrame
import Bemtvi.Rpc.ScanLaws
import Bemtvi.Rpc.ScanExact
import Bemtvi.Rpc.Reader
import Bemtvi.Lib.Run
import Bemtvi.Rpc.Encode
import Bemtvi.Rpc.Pending
import Bemtvi.Rpc.PendingLaws
import Bemtvi.Core.Buffer
import Bemtvi.Core.Journal
import Bemtvi.Core.MarkRides
import Bemtvi.Lib.Picks
import Bemtvi.Core.UndoTree
import Bemtvi.Core.Undo
import Bemtvi.Core.UndoLaws
import Bemtvi.Core.UndoRuns
import Bemtvi.Core.Save
import Bemtvi.Core.Global
import Bemtvi.Daemon.Supervisor
import Bemtvi.Daemon.SupervisorLaws
import Bemtvi.Daemon.Proc
import Bemtvi.Daemon.ProcLaws
import Bemtvi.Lib.Framing
import Bemtvi.Lib.Tickets
import Bemtvi.Lib.Recency
import Bemtvi.Lsp.Protocol
import Bemtvi.Lsp.Manager
import Bemtvi.Lsp.ManagerLaws
import Bemtvi.Lsp.Frames
import Bemtvi.Lsp.SyncClient
import Bemtvi.Lsp.SyncClientLaws
import Bemtvi.Shada.Store
import Bemtvi.Shada.MergeLaws
import Bemtvi.Shada.Instances
import Bemtvi.Shada.InstancesLaws
import Bemtvi.Input.Notation
import Bemtvi.Input.NotationLaws
import Bemtvi.Input.Termcodes
import Bemtvi.Input.ClientKeys
import Bemtvi.Lib.Trie
import Bemtvi.Server.Keymap
import Bemtvi.Server.KeymapLaws
import Bemtvi.Core.Fold
import Bemtvi.Core.FoldLaws
import Bemtvi.Lib.Utf16
import Bemtvi.Core.Encoding
import Bemtvi.Core.FileText
import Bemtvi.Lib.Lines
import Bemtvi.Core.FoldInputs
import Bemtvi.Core.FoldInputsLaws
import Bemtvi.Lib.Edits
import Bemtvi.Lsp.Position
import Bemtvi.Lsp.PositionLaws
import Bemtvi.Lsp.SemanticTokens
import Bemtvi.Lsp.SemanticTokensLaws
import Bemtvi.Lsp.TextEdits
import Bemtvi.Lsp.TextEditsLaws
import Bemtvi.Lsp.WorkspaceEdits
import Bemtvi.Lsp.WorkspaceEditsLaws
import Bemtvi.Lib.Assoc
import Bemtvi.Lib.MaxTree
import Bemtvi.Lib.Sorted
import Bemtvi.Core.Extmarks
import Bemtvi.Core.ExtmarksLaws
import Bemtvi.Core.UndoMarks
import Bemtvi.Core.UndoMarksLaws
import Bemtvi.Lib.Word
import Bemtvi.Core.Floats
import Bemtvi.Core.Registers
import Bemtvi.Core.Macros
import Bemtvi.Lsp.Renames
import Bemtvi.Core.LineEdits
import Bemtvi.Core.LineEditsLaws
import Bemtvi.Core.ApiEdits
import Bemtvi.Lib.Shares
import Bemtvi.Core.Windows
import Bemtvi.Core.WindowsLaws
import Bemtvi.Lib.Utf8Bytes
import Bemtvi.Core.ExLine
import Bemtvi.Core.ExBars
import Bemtvi.Core.ExRanges
import Bemtvi.Core.ExSubstitutes
import Bemtvi.Core.ExCuts
import Bemtvi.Core.FileArgs
import Bemtvi.Core.Globs
import Bemtvi.Lsp.FramingGuard
import Bemtvi.Lsp.FramingGuardLaws
import Bemtvi.Core.Statusline
import Bemtvi.Core.StatuslineLaws
import Bemtvi.Core.Quickfix
import Bemtvi.Core.QuickfixLaws
import Bemtvi.Core.Counts
import Bemtvi.Core.CountsLaws
import Bemtvi.Core.SearchSteps
import Bemtvi.Core.SearchStepsLaws
import Bemtvi.Core.Commands
import Bemtvi.Core.CommandsLaws
import Bemtvi.Core.Jumps
import Bemtvi.Core.JumpsLaws
import Bemtvi.Core.MarkCounts
import Bemtvi.Core.FoldBatches
import Bemtvi.Core.FoldLevels
import Bemtvi.Core.FoldRanges
import Bemtvi.Core.Snippet
import Bemtvi.Core.SnippetLaws
import Bemtvi.Core.SnippetMirrors
import Bemtvi.Lib.Spines
import Bemtvi.Core.UndoView
import Bemtvi.Core.UndoTravel
import Bemtvi.Lib.Clusters
import Bemtvi.Core.Columns
import Bemtvi.Core.ColumnsLaws
import Bemtvi.Core.WrapRows
import Bemtvi.Core.WrapRowsLaws
import Bemtvi.Lib.Sweep
import Bemtvi.Server.Highlights
import Bemtvi.Server.HighlightsLaws
import Bemtvi.Lsp.FileOps
import Bemtvi.Lsp.FileOpsLaws
import Bemtvi.Lsp.FileOpsAnswers
import Bemtvi.Lib.Patterns
import Bemtvi.Treesitter.LuaPattern
import Bemtvi.Treesitter.LuaPatternLaws
import Bemtvi.Lib.Parsing
import Bemtvi.Core.Expr
import Bemtvi.Core.ExprLaws
import Bemtvi.Core.ExprText
import Bemtvi.Lib.LexicalPaths
import Bemtvi.Lib.Percent
import Bemtvi.Core.PathStyle
import Bemtvi.Core.FileUris
import Bemtvi.Core.NormalPaths
