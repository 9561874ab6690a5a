import LogSweep.Main
import LogSweep.Proofs.CharacterBoundary
import LogSweep.Proofs.LiteralExtent
import LogSweep.Proofs.CodeBytes
import LogSweep.Proofs.ParenthesisPairing
import LogSweep.Proofs.CallSpelling
import LogSweep.Proofs.SweepStep
import LogSweep.Proofs.SweepTotality
import LogSweep.Proofs.SweepHistory
import LogSweep.Proofs.SurvivingSegments
import LogSweep.Proofs.DeletedBytes
import LogSweep.Proofs.StatementDeletion
import LogSweep.Proofs.DeletedCall
import LogSweep.Proofs.ValueUse
import LogSweep.Proofs.CodeTokens
import LogSweep.Proofs.StatementJoin
import LogSweep.Proofs.ControlBody
import LogSweep.Proofs.BlankLineSqueeze
import LogSweep.Proofs.KeptNames
import LogSweep.Proofs.CleaningTwice
import LogSweep.Proofs.CarriageReturn
import LogSweep.Proofs.LiteralLines
import LogSweep.Proofs.LiteralReturns
import LogSweep.Proofs.SegmentReturns
import LogSweep.Proofs.SweepReturns
import LogSweep.Proofs.ReportedCalls
import LogSweep.Proofs.TextLines
import LogSweep.Proofs.PlacedLines
import LogSweep.Proofs.UntouchedLines
import LogSweep.Proofs.LiteralNewlines
import LogSweep.Proofs.LiteralEnds
import LogSweep.Proofs.SqueezedLiterals
import LogSweep.Proofs.KeptLiterals
import LogSweep.Proofs.LiteralContinuation
import LogSweep.Proofs.SweepContinuation
import LogSweep.Proofs.TrailingSweep
import LogSweep.Proofs.SweepComposition
import LogSweep.Proofs.CleaningConvergence
import LogSweep.Proofs.FileRequests
import LogSweep.Proofs.TemplateRecursion
import LogSweep.Proofs.PairingPass
import LogSweep.Proofs.ParenthesisNesting
import LogSweep.Proofs.OpenParentheses
import LogSweep.Proofs.BlankRuns
import LogSweep.Proofs.BlankLineReturns
import LogSweep.Proofs.ClosingBalance
import LogSweep.Proofs.LiteralSpelling
import LogSweep.Proofs.HeldWhitespace
import LogSweep.Proofs.SignRuns
import LogSweep.Proofs.ScannerBoundary
import LogSweep.Proofs.StringSpelling
import LogSweep.Proofs.CheckedRun
