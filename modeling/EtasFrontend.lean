import EtasFrontend.Session.Pending
import EtasFrontend.Effects.Requirements
import EtasFrontend.Types.RowSolverCorrect
import EtasFrontend.Types.StoreCodec
import EtasFrontend.Types.SubstitutionCorrect
import EtasFrontend.Effects.MonitorCorrect
import EtasFrontend.Effects.SummaryAccounting
import EtasFrontend.Residual.VerifyExact
import EtasFrontend.Analysis.SolverCorrect
import EtasFrontend.Concurrency.ConflictCorrect
import EtasFrontend.Resolution.MembersCorrect
import EtasFrontend.Resolution.WildcardCorrect
import EtasFrontend.Resolution.ReExportCorrect
import EtasFrontend.Residual.EligibilityExact
import EtasFrontend.Artifact.FingerprintCorrect
import EtasFrontend.Hir.LogicalChain
import EtasFrontend.Passes.LoopProgressExact
import EtasFrontend.Passes.CpuParallelExact
import EtasFrontend.Residual.Permissions
import EtasFrontend.Contract.LatentExact
import EtasFrontend.Solver.BoundEvidenceExact
import EtasFrontend.Session.TextEdits
import EtasFrontend.Session.SourceState
import EtasFrontend.Optimization.LoopReplacement
import EtasFrontend.Optimization.LoopFusionCorrect
import EtasFrontend.Optimization.QualityContext
import EtasFrontend.Project.AffectedModules
import EtasFrontend.Syntax.Unquote
import EtasFrontend.Syntax.PrecedenceClimbing
import EtasFrontend.Syntax.LexerExact
import EtasFrontend.Syntax.LookaheadExact
import EtasFrontend.Alias.SolverExact
import EtasFrontend.Types.UnifierLayers
import EtasFrontend.Solver.EqualConstraints
import EtasFrontend.Types.TypeGraphCorrect
import EtasFrontend.Effects.CoverageOrder
import EtasFrontend.Types.SubstitutionHistory
import EtasFrontend.Types.SubstitutionModes
import EtasFrontend.Types.NumericLiteralExact
import EtasFrontend.Effects.RowVariable
import EtasFrontend.Effects.ExitSummary
import EtasFrontend.Types.Representation
import EtasFrontend.Alias.InstantiateExact
import EtasFrontend.Hir.TreeVisit
