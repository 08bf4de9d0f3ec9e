import Adequacy.Arguments
import Adequacy.Binary64
import Adequacy.Blank
import Adequacy.ByteText
import Adequacy.Catalog
import Adequacy.ClassSyntax
import Adequacy.CoverSet
import Adequacy.Coverage
import Adequacy.Diagnostic
import Adequacy.Execution
import Adequacy.ExpressionSyntax
import Adequacy.FileTree
import Adequacy.FunctionSyntax
import Adequacy.Generation
import Adequacy.HarnessScript
import Adequacy.Insertion
import Adequacy.Instrumentation
import Adequacy.Json
import Adequacy.JsonField
import Adequacy.JsonReader
import Adequacy.Lexeme
import Adequacy.Main
import Adequacy.ModuleSyntax
import Adequacy.Motion
import Adequacy.Mutant
import Adequacy.Mutation
import Adequacy.NameChar
import Adequacy.Node
import Adequacy.NodeDiscovery
import Adequacy.NodeReply
import Adequacy.NodeWorker
import Adequacy.Parser
import Adequacy.Patch
import Adequacy.Pattern
import Adequacy.PrimarySyntax
import Adequacy.Probe
import Adequacy.Proofs.AccessLayout
import Adequacy.Proofs.Accumulation
import Adequacy.Proofs.AssertionCalls
import Adequacy.Proofs.CaseProbes
import Adequacy.Proofs.ChainMutations
import Adequacy.Proofs.ChoiceEvaluation
import Adequacy.Proofs.ChoiceReading
import Adequacy.Proofs.ClassLayout
import Adequacy.Proofs.Confinement
import Adequacy.Proofs.CoverageViews
import Adequacy.Proofs.Exchanges
import Adequacy.Proofs.ExpressionLayout
import Adequacy.Proofs.FunctionLayout
import Adequacy.Proofs.Isolation
import Adequacy.Proofs.ItemTexts
import Adequacy.Proofs.JsonLayout
import Adequacy.Proofs.JsonMembers
import Adequacy.Proofs.JsonOrder
import Adequacy.Proofs.JsonScalars
import Adequacy.Proofs.LabeledLoops
import Adequacy.Proofs.Layout
import Adequacy.Proofs.LinePositions
import Adequacy.Proofs.LogicalReading
import Adequacy.Proofs.LogicalText
import Adequacy.Proofs.MarkFrames
import Adequacy.Proofs.MutantPrograms
import Adequacy.Proofs.MutantRecords
import Adequacy.Proofs.MutationReport
import Adequacy.Proofs.NextToken
import Adequacy.Proofs.Occurrences
import Adequacy.Proofs.Parsing
import Adequacy.Proofs.PatchInverse
import Adequacy.Proofs.PlacedTexts
import Adequacy.Proofs.Placement
import Adequacy.Proofs.PrimaryLayout
import Adequacy.Proofs.PrintedNodes
import Adequacy.Proofs.PrintedProgram
import Adequacy.Proofs.ProbeCalls
import Adequacy.Proofs.ProbedConstructs
import Adequacy.Proofs.ProgramLayout
import Adequacy.Proofs.Prologues
import Adequacy.Proofs.Regrouping
import Adequacy.Proofs.Removal
import Adequacy.Proofs.ResolvedSpans
import Adequacy.Proofs.ShownTexts
import Adequacy.Proofs.SimultaneousEdits
import Adequacy.Proofs.SparedCalls
import Adequacy.Proofs.StaleReplies
import Adequacy.Proofs.TemplateText
import Adequacy.Proofs.TextSlice
import Adequacy.Proofs.TokenTiling
import Adequacy.Proofs.TransparentProbes
import Adequacy.Proofs.Turning
import Adequacy.Quoted
import Adequacy.Report
import Adequacy.Run
import Adequacy.Settings
import Adequacy.SourceRange
import Adequacy.Span
import Adequacy.StatementSyntax
import Adequacy.SyntaxError
import Adequacy.Token
