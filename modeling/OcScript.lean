import OcScript.Decimal
import OcScript.Value
import OcScript.Token
import OcScript.StringMap
import OcScript.KeywordTable
import OcScript.Chunk
import OcScript.Diagnostic
import OcScript.Scan
import OcScript.Expr
import OcScript.Stmt
import OcScript.Parse.Reading
import OcScript.Parse.Level
import OcScript.Parse.Expression
import OcScript.Parse.Statement
import OcScript.Parse.Program
import OcScript.Scopes
import OcScript.ScopeTree
import OcScript.Sink
import OcScript.RuntimeError
import OcScript.Eval
import OcScript.Exec
import OcScript.Run
import OcScript.Text.Ranges
import OcScript.Text.Extend
import OcScript.Text.SpacingMark
import OcScript.Text.Conjunct
import OcScript.Text.Pictographic
import OcScript.Text.BreakClass
import OcScript.Text.Cluster
import OcScript.CommandLine.Options
import OcScript.CommandLine.Folder
import OcScript.CommandLine.Lines
import OcScript.CommandLine.Invocation
import OcScript.Main
import OcScript.Proofs.Trees
import OcScript.Proofs.Parse.Equations
import OcScript.Proofs.Parse.FlatComparison
import OcScript.Proofs.Parse.WrittenForm
import OcScript.Proofs.Parse.Soundness
import OcScript.Proofs.Parse.Completeness
import OcScript.Proofs.Scan.Newline
import OcScript.Proofs.Parse.Join
import OcScript.Proofs.Exec.Keeps
import OcScript.Proofs.Exec.Relabel
import OcScript.Proofs.Run.Sessions
import OcScript.Proofs.Exec.Failures
import OcScript.Proofs.Scan.MaximalMunch
import OcScript.Proofs.Exec.Allowance
import OcScript.Proofs.Exec.Lockstep
import OcScript.Proofs.Exec.Rename
import OcScript.Proofs.Exec.PlainBlocks
import OcScript.Proofs.Run.Accepted
import OcScript.Proofs.Exec.BoundedSink
import OcScript.Proofs.Scopes.History
import OcScript.Proofs.Scopes.Outward
import OcScript.Proofs.Scopes.WriteHistory
import OcScript.Proofs.Parse.Blame
import OcScript.Proofs.Run.ErrorPlaces
import OcScript.Proofs.Exec.ScopeNames
import OcScript.Proofs.Exec.BlockFrames
import OcScript.Proofs.Run.GlobalNames
import OcScript.Proofs.Scan.Lookahead
import OcScript.Proofs.Scan.Respelled
import OcScript.Proofs.Run.Respelling
import OcScript.Proofs.Parse.Recovery
import OcScript.Proofs.Parse.Extension
import OcScript.Proofs.Parse.Survival
import OcScript.Proofs.Parse.CleanFront
import OcScript.Proofs.Parse.Cursor
import OcScript.Proofs.Parse.CursorReads
import OcScript.Proofs.Parse.CursorBounds
import OcScript.Proofs.Parse.Reports
import OcScript.Proofs.Parse.Placeholders
import OcScript.Proofs.Parse.DistinctBlame
import OcScript.Proofs.Run.LexicalScope
import OcScript.Proofs.Scan.Pass
import OcScript.Proofs.Scan.Lines
import OcScript.Proofs.Scan.Rescan
import OcScript.Proofs.Scan.Blanked
import OcScript.Proofs.Scan.SpellingOrder
import OcScript.Proofs.Scan.Retyped
import OcScript.Proofs.Number.Numeral
import OcScript.Proofs.Number.ReadBack
import OcScript.Proofs.Run.PrintedLiterals
import OcScript.Proofs.Dump.Form
import OcScript.Proofs.Dump.TreeForms
import OcScript.Proofs.Dump.Unambiguous
