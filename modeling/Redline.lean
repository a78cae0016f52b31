import Redline.Bytes
import Redline.Calendar
import Redline.Cli.Arguments
import Redline.Cli.Compare
import Redline.Cli.Edit
import Redline.Cli.Outcome
import Redline.Command.Address
import Redline.Command.Basic
import Redline.Command.Canonical
import Redline.Command.Parser
import Redline.Command.Script
import Redline.Diff.Blocks
import Redline.Diff.Change
import Redline.Diff.Context
import Redline.Diff.EdScript
import Redline.Diff.Hunk
import Redline.Diff.Label
import Redline.Diff.Normal
import Redline.Diff.Report
import Redline.Diff.Row
import Redline.Diff.RunTable
import Redline.Diff.Unified
import Redline.Document.LineIndex
import Redline.Document.PieceTable
import Redline.Editor.Addressing
import Redline.Editor.Basic
import Redline.Editor.Error
import Redline.Editor.Execute
import Redline.Editor.Lines
import Redline.Editor.Visible
import Redline.Files.Error
import Redline.Files.Path
import Redline.Files.Replace
import Redline.Files.Source
import Redline.Files.Tree
import Redline.Lines
import Redline.Main
import Redline.Proofs.AddressArithmetic
import Redline.Proofs.AddressText
import Redline.Proofs.Addressing
import Redline.Proofs.Alignment
import Redline.Proofs.AtomicReplacement
import Redline.Proofs.Binds
import Redline.Proofs.BlockDiff
import Redline.Proofs.ChangeDetection
import Redline.Proofs.ChangeWindows
import Redline.Proofs.CommandLines
import Redline.Proofs.CommandOutcomes
import Redline.Proofs.CommandText
import Redline.Proofs.CommonRun
import Redline.Proofs.ContextAttribution
import Redline.Proofs.ContextPatch
import Redline.Proofs.ContextReading
import Redline.Proofs.Cursor
import Redline.Proofs.DelimitedText
import Redline.Proofs.EdScriptReadBack
import Redline.Proofs.EdScriptReading
import Redline.Proofs.EdScriptRun
import Redline.Proofs.ExplicitRanges
import Redline.Proofs.FailedCommands
import Redline.Proofs.ForwardInsertion
import Redline.Proofs.Framing
import Redline.Proofs.GuardedListings
import Redline.Proofs.HunkShape
import Redline.Proofs.InPlaceEdits
import Redline.Proofs.LineActions
import Redline.Proofs.LineBoundaries
import Redline.Proofs.LineCommands
import Redline.Proofs.LineEditor
import Redline.Proofs.LineRefinement
import Redline.Proofs.LineText
import Redline.Proofs.NormalPatch
import Redline.Proofs.NormalReading
import Redline.Proofs.Numerals
import Redline.Proofs.Outcomes
import Redline.Proofs.Patch
import Redline.Proofs.PathWalks
import Redline.Proofs.PieceLayout
import Redline.Proofs.PrintedLines
import Redline.Proofs.RangeReads
import Redline.Proofs.Reachable
import Redline.Proofs.Reconstruction
import Redline.Proofs.Relay
import Redline.Proofs.Replacement
import Redline.Proofs.ReportLines
import Redline.Proofs.RunSearches
import Redline.Proofs.SaveLoad
import Redline.Proofs.ShortOutput
import Redline.Proofs.StorageIndependence
import Redline.Proofs.TableEdits
import Redline.Proofs.TableText
import Redline.Proofs.TextBytes
import Redline.Proofs.TextEnds
import Redline.Proofs.UnifiedPatch
import Redline.Proofs.UnifiedReading
import Redline.Proofs.VisibleLines
import Redline.Session
import Redline.Span
import Redline.Text.Blank
import Redline.Text.CodeRange
import Redline.Text.Mark
import Redline.Text.Numeral
import Redline.Text.Printable
import Redline.Text.Quoted
import Redline.Text.Unassigned
import Redline.Text.Utf8
