import Sumscript.Main
import Sumscript.Tree.Expectation
import Sumscript.Proofs.Evaluation
import Sumscript.Proofs.Lowering
import Sumscript.Proofs.StackHeight
import Sumscript.Proofs.CompiledRun
import Sumscript.Proofs.Matching
import Sumscript.Proofs.RuleOrder
import Sumscript.Proofs.Adequacy
import Sumscript.Proofs.Spelling
import Sumscript.Proofs.LexicalRules
import Sumscript.Proofs.Building
import Sumscript.Proofs.ParsedText
import Sumscript.Proofs.RenderedText
import Sumscript.Proofs.Lexemes
import Sumscript.Proofs.Commands
import Sumscript.Proofs.SourceCode
import Sumscript.Proofs.UnitLayout
import Sumscript.Proofs.NativeRun
import Sumscript.Proofs.BuilderMoves
import Sumscript.Proofs.ReplayedLog
import Sumscript.Proofs.Course
import Sumscript.Proofs.DepthLimit
import Sumscript.Proofs.Attempts
import Sumscript.Proofs.AbridgedCourse
import Sumscript.Proofs.FurthestAttempt
import Sumscript.Proofs.AttemptedParts
import Sumscript.Proofs.OperandAttempts
import Sumscript.Proofs.ExpressionAttempts
import Sumscript.Proofs.ProgramAttempts
import Sumscript.Proofs.RememberedOutcomes
import Sumscript.Proofs.WrittenRules
import Sumscript.Proofs.ViablePrefix
import Sumscript.Proofs.StackAccount
import Sumscript.Proofs.LiteralBounds
import Sumscript.Proofs.Nesting
import Sumscript.Proofs.JoinedPrograms
import Sumscript.Proofs.TextLines
import Sumscript.Proofs.LineEndForms
import Sumscript.Proofs.RespelledAttempts
import Sumscript.Proofs.CompilableTrees
import Sumscript.Proofs.BoundedRuns
import Sumscript.Proofs.TreeHeight
import Sumscript.Proofs.NestedMatches
import Sumscript.Proofs.FailedSteps
import Sumscript.Proofs.ArrayBounds
import Sumscript.Proofs.Rollback
import Sumscript.Proofs.LogOrder
import Sumscript.Proofs.TreeEdits
import Sumscript.Proofs.NodeOrigins
import Sumscript.Proofs.QuotedLines
import Sumscript.Proofs.Positions
import Sumscript.Proofs.TreeNotations
import Sumscript.Proofs.Advance
import Sumscript.Proofs.Termination
import Sumscript.Proofs.MatchedOnce
