import Ned.Text.Theorems.Storage
import Ned.Text.Lemmas.Tracking
import Ned.Text.UndoTree
import Ned.Text.LineDiff
import Ned.Text.Theorems.LineDiff
import Ned.Text.Theorems.MergeSymmetry
import Ned.Text.Grapheme
import Ned.Text.Buffer
import Ned.Text.Lemmas.Buffer
import Ned.Text.Lemmas.Session
import Ned.Text.Theorems.Anchors
import Ned.Text.Theorems.AnchorOrder
import Ned.Text.Theorems.Landing
import Ned.Text.Theorems.MultiCursor
import Ned.Text.Theorems.OffsetRemap
import Ned.Text.Theorems.Stepping
import Ned.Text.Theorems.Saves
import Ned.Text.Lemmas.UndoTree
import Ned.Text.Lemmas.Grapheme
import Ned.Text.Lemmas.UndoRecording
import Ned.UI.Theorems.Loads
import Ned.Library.Lemmas.MeasuredTree
import Ned.Text.Theorems.Balance
import Ned.Text.Theorems.Snippets
import Ned.Library.Scanner
import Ned.Text.Charset
import Ned.Text.Lemmas.Charset
import Ned.Text.Theorems.Charset
import Ned.Text.SavePlan
import Ned.Text.Lemmas.SavePlan
import Ned.Text.Theorems.SavePlan
import Ned.Text.Theorems.Opening
import Ned.Editor.Protocol.Theorems
import Ned.Text.Theorems.UnsavedRanges
import Ned.Text.Theorems.Excerpts
import Ned.Text.Theorems.MergeAlignment
import Ned.Editor.Protocol.Theorems.Credit
import Ned.Editor.Protocol.Theorems.Responses
import Ned.Editor.Protocol.Theorems.FrameTransport
import Ned.Editor.Grammar.Theorems.LexDfa
import Ned.Editor.Grammar.Theorems.Assembler
import Ned.Editor.Grammar.Theorems.Nfa
import Ned.Editor.Lsp.Theorems.Stranded
import Ned.Editor.Lsp.Theorems.Multiplexing
import Ned.Editor.Refactoring.Theorems.ChangeSignature
import Ned.Editor.Project.Theorems.ScanPipeline
import Ned.Editor.Project.Theorems.Undo
import Ned.Editor.Acp.Theorems.UndoOrder
import Ned.Editor.Lsp.Theorems.EmbeddedDocuments
import Ned.Editor.Lsp.Theorems.Position
import Ned.Editor.Lsp.Theorems.EditApply
import Ned.Editor.Grammar.Theorems.ShortestYields
import Ned.Editor.Parse.Theorems.Edit
import Ned.Editor.Query.Theorems.Dispatch
import Ned.Editor.Keys.Theorems.Keymap
import Ned.Editor.Keys.Theorems.Dispatcher
import Ned.Editor.Format.Theorems.FormatEdit
import Ned.Editor.Format.Theorems.HugeFileReindent
import Ned.Editor.Format.Theorems.FormatWrap
import Ned.Editor.Regex.Theorems.HugeRegexScan
import Ned.Editor.Regex.Theorems.ScopedReplace
import Ned.Editor.Multibuffer.Theorems.Commit
import Ned.Editor.Vcs.Theorems.DiffPatch
import Ned.Editor.Search.Theorems.IncrementalSearch
import Ned.Editor.Search.Theorems.SearchEngine
import Ned.Editor.Remote.Theorems.KnownHosts
import Ned.Editor.Remote.Theorems.Proc
import Ned.Editor.Grammar.Theorems.TableFile
import Ned.Editor.Grammar.Theorems.InputGrammar
