import Paneflow.App.SessionSave
import Paneflow.App.Spaces
import Paneflow.Bfs
import Paneflow.Boundaries
import Paneflow.BracketedPaste
import Paneflow.Cli.NewText
import Paneflow.Cli.Ports
import Paneflow.Code.DiskPlan
import Paneflow.Code.DocRows
import Paneflow.Code.EditorRun
import Paneflow.Code.Highlight
import Paneflow.Code.HighlightRun
import Paneflow.Code.LongestLine
import Paneflow.Code.Points
import Paneflow.Code.Revert
import Paneflow.Code.RowRuns
import Paneflow.Code.SpliceOffsets
import Paneflow.Code.Windows
import Paneflow.Config.LayoutSchema
import Paneflow.Config.Ratios
import Paneflow.Config.SessionSchema
import Paneflow.ControlSequences
import Paneflow.Delimited
import Paneflow.Dfs
import Paneflow.Embeddings
import Paneflow.Flow.Accepted
import Paneflow.Flow.Cycles
import Paneflow.Flow.Spec
import Paneflow.Flow.Substitution
import Paneflow.Flow.Tokens
import Paneflow.Git.RenamePairs
import Paneflow.Git.Similarity
import Paneflow.Git.Sparse
import Paneflow.Host.AgentWire
import Paneflow.Host.Approvals
import Paneflow.Host.ControlAnswers
import Paneflow.Host.Delivered
import Paneflow.Host.DeliveredText
import Paneflow.Host.FencedReads
import Paneflow.Host.FileOrder
import Paneflow.Host.Finals
import Paneflow.Host.Foreground
import Paneflow.Host.ForegroundCache
import Paneflow.Host.Generations
import Paneflow.Host.HookEvents
import Paneflow.Host.Identity
import Paneflow.Host.InboxRun
import Paneflow.Host.Latest
import Paneflow.Host.ProgramStatus
import Paneflow.Host.RolledBack
import Paneflow.Host.Runtimes
import Paneflow.Host.Shutdown
import Paneflow.Host.Staging
import Paneflow.Host.Stream
import Paneflow.Host.Surfaces
import Paneflow.Host.TextFrames
import Paneflow.Host.WriteScope
import Paneflow.Host.WriteTokens
import Paneflow.IpAddr
import Paneflow.Ipc.LineWire
import Paneflow.Ipc.Pages
import Paneflow.Ipc.Scrollback
import Paneflow.JsonText
import Paneflow.Layout.CloseRemove
import Paneflow.Layout.Navigation
import Paneflow.Layout.Run
import Paneflow.Lcs
import Paneflow.Occurrences
import Paneflow.Outline
import Paneflow.Patches
import Paneflow.PathPicker.Codec
import Paneflow.PathPicker.Highlights
import Paneflow.PathPicker.Locate
import Paneflow.PathPicker.Scan
import Paneflow.Rects
import Paneflow.Rows
import Paneflow.Serve.Follow
import Paneflow.Serve.Stale
import Paneflow.Serve.StateSeq
import Paneflow.ShellWords
import Paneflow.Slots
import Paneflow.Splitting
import Paneflow.Terminal.Mailbox
import Paneflow.Terminal.MarkChunks
import Paneflow.Terminal.Marks
import Paneflow.Terminal.Mirrored
import Paneflow.Terminal.PtyText
import Paneflow.Terminal.PublishGate
import Paneflow.Terminal.ServiceLines
import Paneflow.Terminal.ServiceOutput
import Paneflow.Terminal.ServiceParsing
import Paneflow.Terminal.WindowsPaths
import Paneflow.Textdiff.BestMatching
import Paneflow.Textdiff.MatchedPairs
import Paneflow.Textdiff.SameLines
import Paneflow.Textdiff.Tracker
import Paneflow.Textdiff.WordChunks
import Paneflow.Traversal
import Paneflow.Update.Urls
import Paneflow.Usage.Backfill
import Paneflow.Usage.Booked
import Paneflow.Usage.Flush
import Paneflow.Usage.Imported
import Paneflow.Usage.MessageIds
import Paneflow.Usage.Turns
import Paneflow.Workspace.Blobs
import Paneflow.Workspace.SnapshotRefs
import Paneflow.Workspace.Status
import Paneflow.Workspace.Worktree
