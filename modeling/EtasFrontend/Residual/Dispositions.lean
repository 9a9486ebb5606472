import EtasFrontend.Effects.Monitor
import EtasFrontend.Residual.Materialize

/-! The tables of a trace analysis, and the dispositions that are looked up in them. -/
namespace EtasFrontend.Residual
open Lib Effects

/-! Outcomes of clauses. -/

inductive TemporalUncertainty where
  | outcomeEvidence | orderedActions | openRequestedActions

inductive TemporalStaticDisposition where
  | proven
  | violated
  | unsupported (uncertainty : TemporalUncertainty)

def TemporalStaticDisposition.fromMonitor (result : TemporalMonitorResult)
    (requestedActionsOpen : Bool) : TemporalStaticDisposition :=
  match result with
  | .satisfied =>
    if requestedActionsOpen then .unsupported .openRequestedActions else .proven
  | .violation => .violated
  | .needsOutcomeEvidence => .unsupported .outcomeEvidence
  | .unknown => .unsupported .orderedActions

structure TemporalClauseOutcome where
  sourceClause : Option ClauseId
  guard : TraceSpecPattern
  target : TraceSpecPattern
  disposition : TemporalStaticDisposition

structure DenialClauseAnalysis extends DenialClauseOutcome where
  pattern : TraceSpecPattern
  disposition : DenialStaticDisposition

inductive ClauseAnalysis where
  | temporal (outcome : TemporalClauseOutcome)
  | denial (outcome : DenialClauseAnalysis)

def ClauseAnalysis.outcome : ClauseAnalysis → ClauseOutcome
  | .temporal _ => .temporal
  | .denial outcome => .denial outcome.toDenialClauseOutcome

structure TracePermission where
  pattern : TraceSpecPattern
  origin : ℕ
  sourceClause : Option ClauseId

structure PermissionOutcome where
  permissions : List TracePermission
  requested : EffectRow
  unresolvedCalls : Bool
  uncovered : List (Effect × Bool)
  unresolved : Bool

def PermissionOutcome.disposition (outcome : PermissionOutcome) :
    CheckedTracePermissionDisposition :=
  if outcome.uncovered.any fun entry => !entry.2 then .violated
  else if outcome.unresolved || !outcome.uncovered.isEmpty then .unsupported
  else .proven

def PermissionOutcome.fact (outcome : PermissionOutcome) : CheckedTraceStaticPermission where
  disposition := outcome.disposition
  requested := outcome.requested
  unresolved := outcome.unresolved
  unresolvedCalls := outcome.unresolvedCalls
  uncovered := outcome.uncovered.map fun entry =>
    (entry.1, if entry.2 then .undetermined else .uncovered)

inductive SourceClauseKind where
  | allow (permissionIndex originIndex : ℕ)
  | deny
  | temporal
  | limit
  deriving DecidableEq

structure AnalyzedConformance extends CheckedTraceSourceConformance where
  span : Hir.Span
  analyzedAlternatives : TraceSpecClauseAlternatives
  clauseKinds : List (List SourceClauseKind)

structure TraceSpecModelStore where
  referencedByItem : Map HirItemId (List TraceSpecClauseAlternatives)
  referencedFactIndices : Map HirItemId (List ℕ)
  sourceOwners : Map HirItemId (Option ℕ)

structure TraceSpecConformanceFact where
  item : HirItemId
  span : Hir.Span

structure TraceSpecConformanceModelFact where
  span : Hir.Span
  sourceSpecInstance : Option SourceSpecInstance

/-- What an analysis reads. The monitor, the normalization of an alternative (its permissions, each
with the place of a clause) and the order of a set of effects are given. -/
structure TraceSpecAnalysisInput where
  limits : MetadataLimits
  coverage : EffectCoverage
  satisfiesSpec : Types.TypeId → Types.SymbolId → List Types.TypeId → Bool
  requireBefore : ActionTraceDomain → TraceSpecPattern → TraceSpecPattern → TemporalMonitorResult
  normalizeAlternative : List TraceSpecClause → Option (List (TraceSpecPattern × ℕ))
  effectList : EffectSet → List Effect
  models : TraceSpecModelStore
  conformanceFacts : List TraceSpecConformanceFact
  recorded : Map HirItemId (List TraceSpecConformanceModelFact)
  summary : HirItemId → Option TraceActionSummary
  defaultActions : HirItemId → Option EffectRow
  /-- Stands for the analyzed rules where they are only compared. -/
  fingerprint : TraceSpecClauseAlternatives → ℕ

namespace TraceSpecAnalysisInput
variable (input : TraceSpecAnalysisInput)

def indexLimit : EffectPipelineError :=
  .analysisLimitExceeded "trace source conformance index" input.limits.nodes

def charge (remaining cost : ℕ) : Except EffectPipelineError ℕ :=
  if cost ≤ remaining then .ok (remaining - cost) else .error input.indexLimit

def invalid (reason : String) : EffectPipelineError := .invalidTraceSpecSourceSites reason

def recordedEntry (state : ℕ × Map (HirItemId × Hir.Span) TraceSpecConformanceModelFact)
    (entry : HirItemId × TraceSpecConformanceModelFact) :
    Except EffectPipelineError
      (ℕ × Map (HirItemId × Hir.Span) TraceSpecConformanceModelFact) := do
  let remaining ← input.charge state.1 1
  if (state.2.get (entry.1, entry.2.span)).isSome then
    throw (invalid "duplicate trace conformance in checked source index")
  return (remaining, state.2.insert (entry.1, entry.2.span) entry.2)

/-- The keys of a tree map, in their order. -/
def items {ν : Type} (m : Map HirItemId ν) : List HirItemId :=
  (m.toList.map Prod.fst).insertionSort (· ≤ ·)

def recordedConformances : Except EffectPipelineError
    (ℕ × Map (HirItemId × Hir.Span) TraceSpecConformanceModelFact) :=
  ((items input.recorded).flatMap fun item =>
    ((input.recorded.get item).getD []).map fun fact => (item, fact)).foldlM
      input.recordedEntry (input.limits.nodes, ∅)

/-- The last permission of a pattern, as in the map by patterns. -/
def permissionPlace (permissions : List (TraceSpecPattern × ℕ)) (pattern : TraceSpecPattern) :
    Option (ℕ × ℕ) :=
  (permissions.zipIdx.reverse.find? fun entry => entry.1.1 == pattern).map fun entry =>
    (entry.2, entry.1.2)

def clauseKind (permissions : List (TraceSpecPattern × ℕ)) :
    TraceSpecClause → Except EffectPipelineError SourceClauseKind
  | .allow pattern _ _ _ =>
    match permissionPlace permissions pattern with
    | some (permissionIndex, originIndex) => .ok (.allow permissionIndex originIndex)
    | none => .error (invalid "normalized trace permission is missing")
  | .deny .. => .ok .deny
  | .requireBefore .. | .requireAfter .. => .ok .temporal
  | .limit => .ok .limit

def collectGroup (remaining : ℕ) (group : List TraceSpecClause) :
    Except EffectPipelineError (ℕ × List SourceClauseKind) :=
  match checkedMul group.length 2 with
  | none => .error input.indexLimit
  | some entries => do
    let remaining ← input.charge remaining entries
    match input.normalizeAlternative group with
    | none => throw input.indexLimit
    | some permissions =>
      let remaining ← input.charge remaining permissions.length
      let kinds ← group.mapM (clauseKind permissions)
      return (remaining, kinds)

def collectGroups : ℕ → TraceSpecClauseAlternatives →
    Except EffectPipelineError (ℕ × List (List SourceClauseKind))
  | remaining, [] => .ok (remaining, [])
  | remaining, group :: groups => do
    let (remaining, kinds) ← input.collectGroup remaining group
    let (remaining, rest) ← collectGroups remaining groups
    return (remaining, kinds :: rest)

def instanceSize : Option SourceSpecInstance → ℕ
  | some source => min (source.arguments.length + source.structuralPath.length) (2 ^ 64 - 1)
  | none => 0

def collectConformance
    (recorded : Map (HirItemId × Hir.Span) TraceSpecConformanceModelFact) (item : HirItemId)
    (state : ℕ × Map ℕ AnalyzedConformance) (entry : (ℕ × TraceSpecClauseAlternatives) × ℕ) :
    Except EffectPipelineError (ℕ × Map ℕ AnalyzedConformance) := do
  let remaining ← input.charge state.1 1
  match input.conformanceFacts[entry.1.1]? with
  | none => throw (invalid "trace source index refers to an invalid type fact")
  | some fact =>
    if fact.item ≠ item then
      throw (invalid "trace source index has a mismatched conformance owner")
    match recorded.get (fact.item, fact.span), input.models.sourceOwners.get item with
    | none, _ => throw (invalid "trace source index has no materialized conformance")
    | _, none => throw (invalid "trace source index has no checked owner record")
    | some stored, some sourceOwner =>
      let remaining ← input.charge remaining (instanceSize stored.sourceSpecInstance)
      let remaining ← input.charge remaining entry.1.2.length
      let (remaining, clauseKinds) ← input.collectGroups remaining entry.1.2
      if (state.2.get entry.1.1).isSome then
        throw (invalid "duplicate type fact in trace source index")
      return (remaining, state.2.insert entry.1.1
        { item
          span := fact.span
          sourceOwner
          sourceInstance := stored.sourceSpecInstance
          clauseIds := entry.1.2.map (List.map TraceSpecClause.sourceClause)
          conformancePosition := entry.2
          analyzed := input.fingerprint entry.1.2
          analyzedAlternatives := entry.1.2
          clauseKinds })

def collectItem
    (recorded : Map (HirItemId × Hir.Span) TraceSpecConformanceModelFact)
    (state : ℕ × Map ℕ AnalyzedConformance) (item : HirItemId) :
    Except EffectPipelineError (ℕ × Map ℕ AnalyzedConformance) :=
  let indices := (input.models.referencedFactIndices.get item).getD []
  match input.models.referencedByItem.get item with
  | none => .error (invalid "trace source index has no checked alternatives")
  | some alternatives =>
    if indices.length ≠ alternatives.length then
      .error (invalid "trace source index has inconsistent conformance counts")
    else (indices.zip alternatives).zipIdx.foldlM (input.collectConformance recorded item) state

def collectSourceConformances : Except EffectPipelineError (Map ℕ AnalyzedConformance) := do
  let (remaining, recorded) ← input.recordedConformances
  let (_, result) ← (items input.models.referencedFactIndices).foldlM (input.collectItem recorded)
    (remaining, ∅)
  return result

def completeSummary (item : HirItemId) : Option TraceActionSummary :=
  (input.summary item).filter fun summary => !summary.incomplete

def temporalOutcome (summary : TraceActionSummary) (clause : TraceSpecClause)
    (guard target : TraceSpecPattern) : TemporalClauseOutcome where
  sourceClause := clause.sourceClause
  guard := guard
  target := target
  disposition := .fromMonitor (input.requireBefore summary.actionTrace guard target)
    summary.requestedActions.openVar.isSome

def analyzeClause (summary : TraceActionSummary) (clause : TraceSpecClause) :
    Option ClauseAnalysis :=
  match clause with
  | .deny pattern .. => some (.denial {
      sourceClause := clause.sourceClause
      pattern
      requested := summary.requestedActions
      unresolvedCalls := summary.actionTrace.hasParameterCalls
      disposition := analyzeDenial input.coverage input.satisfiesSpec pattern summary.actionTrace
        summary.requestedActions })
  | .requireBefore guard target .. =>
    some (.temporal (input.temporalOutcome summary clause guard target))
  | .requireAfter target obligation .. =>
    some (.temporal (input.temporalOutcome summary clause target obligation))
  | .allow .. | .limit => none

def clauseOutcomes (item : HirItemId) : Option (List (List (List (Option ClauseAnalysis)))) := do
  let conformances ← input.models.referencedByItem.get item
  let summary ← input.completeSummary item
  return conformances.map (List.map (List.map (input.analyzeClause summary)))

/-- Whether one of the patterns passes the test, and how many more may be asked. -/
def scanPatterns (test : TraceSpecPattern → Bool) :
    ℕ → List TraceSpecPattern → Option (Bool × ℕ)
  | remaining, [] => some (false, remaining)
  | 0, _ :: _ => none
  | remaining + 1, pattern :: rest =>
    if test pattern then some (true, remaining) else scanPatterns test remaining rest

def uncoveredStep (patterns : List TraceSpecPattern) (state : ℕ × List (Effect × Bool))
    (action : Effect) : Option (ℕ × List (Effect × Bool)) := do
  let (covered, remaining) ← scanPatterns
    (fun pattern => pattern.matchesEffect input.coverage input.satisfiesSpec action) state.1 patterns
  if covered then return (remaining, state.2)
  else
    let (uncertain, remaining) ← scanPatterns
      (fun pattern => pattern.mayMatchEffect input.coverage action) remaining patterns
    return (remaining, state.2 ++ [(action, uncertain)])

def uncoveredActions (patterns : List TraceSpecPattern) (requested : EffectRow) :
    Option (List (Effect × Bool)) :=
  if patterns.isEmpty then some []
  else ((input.effectList requested.effects).foldlM (input.uncoveredStep patterns)
    (input.limits.nodes, [])).map Prod.snd

def analyzePermissions (clauses : List TraceSpecClause)
    (permissions : List (TraceSpecPattern × ℕ)) (requested : EffectRow) (unresolvedCalls : Bool) :
    Option PermissionOutcome := do
  let uncovered ← input.uncoveredActions (permissions.map Prod.fst) requested
  let permissions' ← permissions.mapM fun entry => do
    let clause ← clauses[entry.2]?
    return (⟨entry.1, entry.2, clause.sourceClause⟩ : TracePermission)
  return {
    permissions := permissions'
    requested
    unresolvedCalls
    uncovered
    unresolved := !permissions.isEmpty && (requested.openVar.isSome || unresolvedCalls) }

def permissionOutcomes (item : HirItemId) : Option (List (List (Option PermissionOutcome))) := do
  let conformances ← input.models.referencedByItem.get item
  let summary ← input.completeSummary item
  let defaultActions ← input.defaultActions item
  let requested := input.coverage.subtractHandled summary.requestedActions defaultActions
  return conformances.map (List.map fun clauses => do
    let permissions ← input.normalizeAlternative clauses
    input.analyzePermissions clauses permissions requested summary.actionTrace.hasParameterCalls)

end TraceSpecAnalysisInput

structure TraceSpecTables where
  limits : MetadataLimits
  summary : HirItemId → Option TraceActionSummary
  sourceConformances : Map ℕ AnalyzedConformance
  clauseOutcomes : HirItemId → Option (List (List (List (Option ClauseAnalysis))))
  permissionOutcomes : HirItemId → Option (List (List (Option PermissionOutcome)))

def TraceSpecAnalysisInput.analyze (input : TraceSpecAnalysisInput) :
    Except EffectPipelineError TraceSpecTables := do
  let sourceConformances ← input.collectSourceConformances
  return {
    limits := input.limits
    summary := input.summary
    sourceConformances
    clauseOutcomes := input.clauseOutcomes
    permissionOutcomes := input.permissionOutcomes }

namespace TraceSpecTables
variable (tables : TraceSpecTables)

def permissionOutcome (source : AnalyzedConformance) (alternativeIndex : ℕ) :
    Option PermissionOutcome := do
  let conformances ← tables.permissionOutcomes source.item
  let alternatives ← conformances[source.conformancePosition]?
  let outcome ← alternatives[alternativeIndex]?
  outcome

def clauseOutcome (item : HirItemId) (position alternativeIndex clauseIndex : ℕ) :
    Option (Option ClauseAnalysis) := do
  let conformances ← tables.clauseOutcomes item
  let alternatives ← conformances[position]?
  let clauses ← alternatives[alternativeIndex]?
  clauses[clauseIndex]?

def invalidPermission : EffectPipelineError := .invalidTraceSpecSourceSites
  "trace permission analysis does not match its checked source alternative"

def checkedPermissionFact (index alternativeIndex : ℕ) :
    Except EffectPipelineError CheckedTraceStaticPermission :=
  match tables.sourceConformances.get index with
  | none => .error invalidPermission
  | some source =>
    if source.clauseIds[alternativeIndex]?.isNone then .error invalidPermission
    else
      match tables.permissionOutcome source alternativeIndex with
      | none => .error invalidPermission
      | some outcome => .ok outcome.fact

def invalidClause : EffectPipelineError := .invalidTraceSpecSourceSites
  "trace clause analysis does not match its checked source conformance"

def denialDisposition : DenialStaticDisposition → CheckedTraceClauseDisposition
  | .proven => .proven
  | .violated => .violated
  | .unsupported => .unsupported .denialSelector

def temporalDisposition : TemporalStaticDisposition → CheckedTraceClauseDisposition
  | .proven => .proven
  | .violated => .violated
  | .unsupported .outcomeEvidence => .unsupported .outcomeEvidence
  | .unsupported .orderedActions => .unsupported .orderedActions
  | .unsupported .openRequestedActions => .unsupported .openRequestedActions

/-- A permission answers for the first clause of its pattern. -/
def permissionDisposition (source : AnalyzedConformance)
    (alternativeIndex permissionIndex originIndex : ℕ) : Option CheckedTraceClauseDisposition := do
  let outcome ← tables.permissionOutcome source alternativeIndex
  let ids ← source.clauseIds[alternativeIndex]?
  let expectedOrigin ← ids[originIndex]?
  let permission ← outcome.permissions[permissionIndex]?
  if permission.origin = originIndex ∧ permission.sourceClause = expectedOrigin then
    some .alternativePermission
  else none

def clauseDisposition (source : AnalyzedConformance) (alternativeIndex : ℕ)
    (sourceClause : Option ClauseId) :
    SourceClauseKind → Option ClauseAnalysis → Option CheckedTraceClauseDisposition
  | .deny, some (.denial outcome) =>
    if outcome.sourceClause = sourceClause then some (denialDisposition outcome.disposition)
    else none
  | .temporal, some (.temporal outcome) =>
    if outcome.sourceClause = sourceClause then some (temporalDisposition outcome.disposition)
    else none
  | .allow permissionIndex originIndex, none =>
    tables.permissionDisposition source alternativeIndex permissionIndex originIndex
  | .limit, none => some (.unsupported .unsupportedLimit)
  | _, _ => none

def checkedClauseFact (index alternativeIndex clauseIndex : ℕ) :
    Except EffectPipelineError CheckedTraceClauseFact :=
  match (do
    let source ← tables.sourceConformances.get index
    let kinds ← source.clauseKinds[alternativeIndex]?
    let kind ← kinds[clauseIndex]?
    let ids ← source.clauseIds[alternativeIndex]?
    let sourceClause ← ids[clauseIndex]?
    let result ← tables.clauseOutcome source.item source.conformancePosition alternativeIndex
      clauseIndex
    let disposition ← tables.clauseDisposition source alternativeIndex sourceClause kind result
    return (⟨sourceClause, disposition⟩ : CheckedTraceClauseFact)) with
  | some fact => .ok fact
  | none => .error invalidClause

def isUnsupported : CheckedTraceClauseDisposition → Bool
  | .unsupported _ => true
  | _ => false

/-- All conjuncts of an alternative together. -/
def alternativeDisposition (permission : CheckedTracePermissionDisposition)
    (facts : List CheckedTraceClauseFact) : CheckedTraceStaticDisposition :=
  if permission = .violated || facts.any fun fact => fact.disposition = .violated then .violated
  else if permission = .unsupported || facts.any fun fact => isUnsupported fact.disposition then
    .unsupported
  else .proven

/-- Every clause is visited, so that a missing fact is not hidden behind a conclusion. -/
def checkedAlternativeDisposition (index alternativeIndex : ℕ) :
    Except EffectPipelineError CheckedTraceStaticDisposition :=
  match tables.sourceConformances.get index with
  | none => .error (.invalidTraceSpecSourceSites "trace alternative has no checked source conformance")
  | some source =>
    match source.clauseIds[alternativeIndex]? with
    | none => .error (.invalidTraceSpecSourceSites
        "trace alternative index is not part of its checked conformance")
    | some clauses =>
      if clauses = [] then
        .error (.invalidTraceSpecSourceSites "checked trace alternative is empty")
      else if tables.limits.nodes < clauses.length then
        .error (.analysisLimitExceeded "trace alternative dispositions" tables.limits.nodes)
      else do
        let permission ← tables.checkedPermissionFact index alternativeIndex
        let facts ← (List.range clauses.length).mapM
          (tables.checkedClauseFact index alternativeIndex)
        return alternativeDisposition permission.disposition facts

/-- The alternatives of a conformance, each charged for its clauses. -/
def alternativeDispositions (index : ℕ) : ℕ → ℕ → List (List (Option ClauseId)) →
    Except EffectPipelineError (List CheckedTraceStaticDisposition)
  | _, _, [] => .ok []
  | remaining, alternativeIndex, clauses :: rest =>
    if remaining < min (clauses.length + 1) (2 ^ 64 - 1) then
      .error (.analysisLimitExceeded "trace conformance dispositions" tables.limits.nodes)
    else do
      let disposition ← tables.checkedAlternativeDisposition index alternativeIndex
      let dispositions ← alternativeDispositions index
        (remaining - min (clauses.length + 1) (2 ^ 64 - 1)) (alternativeIndex + 1) rest
      return disposition :: dispositions

/-- A proven alternative suffices, and a violation needs all of them. -/
def conformanceDisposition (dispositions : List CheckedTraceStaticDisposition) :
    CheckedTraceStaticDisposition :=
  if dispositions.contains .proven then .proven
  else if dispositions.contains .unsupported then .unsupported
  else .violated

def checkedConformanceDisposition (index : ℕ) :
    Except EffectPipelineError CheckedTraceStaticDisposition :=
  match tables.sourceConformances.get index with
  | none => .error (.invalidTraceSpecSourceSites "trace conformance has no checked source analysis")
  | some source =>
    if source.clauseIds = [] then
      .error (.invalidTraceSpecSourceSites "checked trace conformance has no alternatives")
    else do
      let dispositions ← tables.alternativeDispositions index tables.limits.nodes 0 source.clauseIds
      return conformanceDisposition dispositions

/-- What the classification of residuals asks of the tables. -/
def output : TraceSpecAnalysisOutput where
  sourceConformance index :=
    (tables.sourceConformances.get index).map AnalyzedConformance.toCheckedTraceSourceConformance
  checkedPermissionFact := tables.checkedPermissionFact
  checkedClauseFact := tables.checkedClauseFact
  checkedConformanceDisposition := tables.checkedConformanceDisposition
  summary := tables.summary
  clauseOutcome item position alternativeIndex clauseIndex :=
    (tables.clauseOutcome item position alternativeIndex clauseIndex).join.map
      ClauseAnalysis.outcome

end TraceSpecTables
end EtasFrontend.Residual
