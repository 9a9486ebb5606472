import EtasFrontend.Effects.Trace
import EtasFrontend.Lib.Fallible

/-! Which checked conformances leave obligations for the runtime. -/
namespace EtasFrontend.Residual
open Lib Effects

abbrev HirItemId := ℕ
abbrev ClauseId := ℕ
abbrev GenericParameterId := ℕ

inductive EffectPipelineError where
  | invalidTraceSpecSourceSites (reason : String)
  | analysisLimitExceeded (resource : String) (limit : ℕ)
  | interrupted (reason : String)
  | other (reason : String)

/-! The checked facts of an analysis. -/

inductive CheckedTraceUncertainty where
  | denialSelector | outcomeEvidence | orderedActions | openRequestedActions | unsupportedLimit
  deriving DecidableEq

inductive CheckedTraceClauseDisposition where
  | proven
  | violated
  | unsupported (uncertainty : CheckedTraceUncertainty)
  | alternativePermission
  deriving DecidableEq

structure CheckedTraceClauseFact where
  sourceClause : Option ClauseId
  disposition : CheckedTraceClauseDisposition
  deriving DecidableEq

inductive CheckedTracePermissionDisposition where
  | proven | violated | unsupported
  deriving DecidableEq

inductive CheckedPermissionCoverage where
  | uncovered | undetermined
  deriving DecidableEq

structure CheckedTraceStaticPermission where
  disposition : CheckedTracePermissionDisposition
  requested : EffectRow
  unresolved : Bool
  unresolvedCalls : Bool
  uncovered : List (Effect × CheckedPermissionCoverage)
  deriving DecidableEq

structure CheckedTraceStaticAlternative where
  permission : CheckedTraceStaticPermission
  clauses : List CheckedTraceClauseFact

inductive CheckedTraceStaticDisposition where
  | proven | violated | unsupported
  deriving DecidableEq

structure StaticTypeTemplate where
  id : ℕ
  nodes : ℕ
  edges : ℕ
  bytes : ℕ
  deriving DecidableEq

inductive StaticBindingRecipe where
  | typeParameter (parameter : GenericParameterId)
  | effectRowParameter (parameter : GenericParameterId)
  | typeTemplate (template : StaticTypeTemplate)
  | explicitType (id : ℕ)
  | explicitEffectRow (id : ℕ)
  deriving DecidableEq

structure SourceSpecInstance where
  id : ℕ
  structuralPath : List ℕ
  arguments : List StaticBindingRecipe
  deriving DecidableEq

structure CheckedTraceSourceConformance where
  item : HirItemId
  sourceOwner : Option ℕ
  sourceInstance : Option SourceSpecInstance
  clauseIds : List (List (Option ClauseId))
  conformancePosition : ℕ
  /-- The analyzed rules and their kinds, which are only compared. -/
  analyzed : ℕ
  deriving DecidableEq

structure CheckedTraceStaticConformance where
  source : CheckedTraceSourceConformance
  alternatives : List CheckedTraceStaticAlternative
  disposition : CheckedTraceStaticDisposition

structure DenialClauseOutcome where
  sourceClause : Option ClauseId
  unresolvedCalls : Bool
  requested : EffectRow

inductive ClauseOutcome where
  | temporal
  | denial (outcome : DenialClauseOutcome)

structure TraceActionSummary where
  incomplete : Bool
  actionTrace : ActionTraceDomain
  requestedActions : EffectRow

/-- The analysis, through what is asked of it. -/
structure TraceSpecAnalysisOutput where
  sourceConformance : ℕ → Option CheckedTraceSourceConformance
  checkedPermissionFact : ℕ → ℕ → Except EffectPipelineError CheckedTraceStaticPermission
  checkedClauseFact : ℕ → ℕ → ℕ → Except EffectPipelineError CheckedTraceClauseFact
  checkedConformanceDisposition : ℕ → Except EffectPipelineError CheckedTraceStaticDisposition
  summary : HirItemId → Option TraceActionSummary
  /-- By item, position of the conformance, alternative and clause. -/
  clauseOutcome : HirItemId → ℕ → ℕ → ℕ → Option ClauseOutcome

abbrev TraceStaticDispositions :=
  Map ℕ (Except EffectPipelineError CheckedTraceStaticConformance)

namespace TraceStaticDispositions

/-- The keys of a tree map, in their order. -/
def indices (dispositions : TraceStaticDispositions) : List ℕ :=
  (dispositions.toList.map Prod.fst).insertionSort (· ≤ ·)

def mismatch : EffectPipelineError :=
  .invalidTraceSpecSourceSites "trace static dispositions do not match their checked source"

def checkedConformance (dispositions : TraceStaticDispositions) (index : ℕ) (item : HirItemId) :
    Except EffectPipelineError CheckedTraceStaticConformance :=
  match dispositions.get index with
  | none => .error mismatch
  | some (.error error) => .error error
  | some (.ok conformance) =>
    if conformance.source.item ≠ item ∨ conformance.alternatives = [] ∨
        conformance.alternatives.length ≠ conformance.source.clauseIds.length then
      .error mismatch
    else if (conformance.alternatives.zip conformance.source.clauseIds).any fun entry =>
        entry.1.clauses.isEmpty || entry.1.clauses.length != entry.2.length then
      .error mismatch
    else .ok conformance

/-- The facts recorded for an alternative are those of the analysis. -/
def verifyAlternative (analysis : TraceSpecAnalysisOutput) (index : ℕ)
    (entry : CheckedTraceStaticAlternative × ℕ) : Except EffectPipelineError Unit := do
  let permission ← analysis.checkedPermissionFact index entry.2
  if entry.1.permission ≠ permission then throw mismatch
  entry.1.clauses.zipIdx.forM fun clause => do
    let fact ← analysis.checkedClauseFact index entry.2 clause.2
    if clause.1 ≠ fact then throw mismatch

def verifiedConformance (dispositions : TraceStaticDispositions) (index : ℕ) (item : HirItemId)
    (analysis : TraceSpecAnalysisOutput) :
    Except EffectPipelineError CheckedTraceStaticConformance := do
  let conformance ← dispositions.checkedConformance index item
  if analysis.sourceConformance index ≠ some conformance.source then throw mismatch
  conformance.alternatives.zipIdx.forM (verifyAlternative analysis index)
  let disposition ← analysis.checkedConformanceDisposition index
  if conformance.disposition ≠ disposition then throw mismatch
  return conformance

end TraceStaticDispositions

inductive TraceResidualCause where
  | denialSelector | permissionSelector | outcomeEvidence | orderedActions
  deriving DecidableEq

inductive TraceResidualIneligibility where
  | notUnproven | violatedAlternative | missingSourceIdentity | incompleteSummary | unresolvedCalls
  | openRequestedActions | unresolvedPermission | unsupportedLimit | missingClauseFacts
  deriving DecidableEq

structure TraceResidualClause where
  alternativeIndex : ℕ
  clauseIndex : ℕ
  clause : ClauseId
  cause : TraceResidualCause
  deriving DecidableEq

structure TraceResidualRequirement where
  typeFactIndex : ℕ
  item : HirItemId
  clauses : List TraceResidualClause
  deriving DecidableEq

inductive TraceResidualEligibility where
  | proven
  | violated
  | needsConcrete (requirement : TraceResidualRequirement)
  | unsupported (reason : TraceResidualIneligibility)
  deriving DecidableEq

def isVar : Effect → Bool
  | .var _ => true
  | _ => false

def rowIsOpen (row : EffectRow) : Bool :=
  row.openVar.isSome || decide (∃ effect ∈ row.effects, isVar effect = true)

def invalidSites : EffectPipelineError :=
  .invalidTraceSpecSourceSites "residual eligibility does not match its checked source conformance"

/-- A return from the middle of the classification: an error, or why there is no obligation. -/
abbrev Stop := EffectPipelineError ⊕ TraceResidualIneligibility

/-- The source clause of a fact, as recorded on both sides. -/
def clauseSite (ids : List (Option ClauseId)) (clauseIndex : ℕ) (fact : CheckedTraceClauseFact) :
    Except Stop ClauseId :=
  match ids[clauseIndex]? with
  | some (some id) => if fact.sourceClause = some id then .ok id else .error (.inl invalidSites)
  | some none => .error (.inr .missingSourceIdentity)
  | none => .error (.inl invalidSites)

/-- Coverage is decided by all allow clauses of the alternative, so each is an obligation. -/
def permissionClauses (alternativeIndex : ℕ) (alternative : CheckedTraceStaticAlternative)
    (ids : List (Option ClauseId)) : Except Stop (List TraceResidualClause) :=
  match alternative.permission.disposition with
  | .proven => .ok []
  | .violated => .error (.inr .violatedAlternative)
  | .unsupported => do
    let permission := alternative.permission
    if permission.unresolved || permission.unresolvedCalls then throw (.inr .unresolvedPermission)
    if rowIsOpen permission.requested then throw (.inr .openRequestedActions)
    if permission.uncovered.isEmpty ||
        permission.uncovered.any fun action => action.2 != .undetermined then
      throw (.inr .missingClauseFacts)
    let allowed := alternative.clauses.zipIdx.filter fun entry =>
      entry.1.disposition = .alternativePermission
    let clauses ← allowed.mapM fun entry => do
      let clause ← clauseSite ids entry.2 entry.1
      return (⟨alternativeIndex, entry.2, clause, .permissionSelector⟩ : TraceResidualClause)
    if clauses.isEmpty then throw (.inr .missingClauseFacts)
    return clauses

/-- The fact a clause waits for, if it waits for one. -/
def clauseCause (outcome : Option ClauseOutcome) (fact : CheckedTraceClauseFact) :
    Except Stop (Option TraceResidualCause) :=
  match fact.disposition with
  | .proven | .alternativePermission => .ok none
  | .violated => .error (.inr .violatedAlternative)
  | .unsupported .unsupportedLimit => .error (.inr .unsupportedLimit)
  | .unsupported .openRequestedActions => .error (.inr .openRequestedActions)
  | .unsupported .denialSelector =>
    match outcome with
    | some (.denial outcome) =>
      if outcome.sourceClause ≠ fact.sourceClause then .error (.inr .missingClauseFacts)
      else if outcome.unresolvedCalls then .error (.inr .unresolvedCalls)
      else if rowIsOpen outcome.requested then .error (.inr .openRequestedActions)
      else .ok (some .denialSelector)
    | _ => .error (.inr .missingClauseFacts)
  | .unsupported .outcomeEvidence => .ok (some .outcomeEvidence)
  | .unsupported .orderedActions => .ok (some .orderedActions)

def alternativeClauses (analysis : TraceSpecAnalysisOutput) (item : HirItemId)
    (source : CheckedTraceSourceConformance) (entry : CheckedTraceStaticAlternative × ℕ) :
    Except Stop (List TraceResidualClause) := do
  match source.clauseIds[entry.2]? with
  | none => throw (.inl invalidSites)
  | some ids =>
    let permission ← permissionClauses entry.2 entry.1 ids
    let clauses ← entry.1.clauses.zipIdx.mapM fun fact => do
      let outcome := analysis.clauseOutcome item source.conformancePosition entry.2 fact.2
      match ← clauseCause outcome fact.1 with
      | none => return []
      | some cause =>
        let clause ← clauseSite ids fact.2 fact.1
        return [(⟨entry.2, fact.2, clause, cause⟩ : TraceResidualClause)]
    let clauses := permission ++ clauses.flatten
    -- an alternative that is neither proven nor violated leaves an obligation
    if clauses.isEmpty then throw (.inr .missingClauseFacts)
    return clauses

def classifyTraceResidual (analysis : TraceSpecAnalysisOutput)
    (dispositions : TraceStaticDispositions) (typeFactIndex : ℕ) (item : HirItemId) :
    Except EffectPipelineError TraceResidualEligibility :=
  match dispositions.verifiedConformance typeFactIndex item analysis with
  | .error error => .error error
  | .ok conformance =>
    match conformance.disposition with
    | .proven => .ok .proven
    | .violated => .ok .violated
    | .unsupported =>
      if conformance.source.sourceOwner.isNone || conformance.source.sourceInstance.isNone then
        .ok (.unsupported .missingSourceIdentity)
      else
        match (analysis.summary item).filter fun summary => !summary.incomplete with
        | none => .ok (.unsupported .incompleteSummary)
        | some summary =>
          if summary.actionTrace.hasParameterCalls then .ok (.unsupported .unresolvedCalls)
          else if rowIsOpen summary.requestedActions then .ok (.unsupported .openRequestedActions)
          else
            match conformance.alternatives.zipIdx.mapM
                (alternativeClauses analysis item conformance.source) with
            | .error (.inl error) => .error error
            | .error (.inr reason) => .ok (.unsupported reason)
            | .ok clauses => .ok (.needsConcrete ⟨typeFactIndex, item, clauses.flatten⟩)

theorem classifyTraceResidual_needsConcrete {analysis : TraceSpecAnalysisOutput}
    {dispositions : TraceStaticDispositions} {index : ℕ} {item : HirItemId}
    {requirement : TraceResidualRequirement}
    (h : classifyTraceResidual analysis dispositions index item =
      .ok (.needsConcrete requirement)) :
    ∃ conformance, dispositions.verifiedConformance index item analysis = .ok conformance ∧
      conformance.disposition = .unsupported ∧
      ∃ lists, conformance.alternatives.zipIdx.mapM
          (alternativeClauses analysis item conformance.source) = .ok lists ∧
        requirement = ⟨index, item, lists.flatten⟩ := by
  unfold classifyTraceResidual at h
  split at h
  · cases h
  · rename_i conformance hconformance
    split at h
    · cases h
    · cases h
    · rename_i hunsupported
      split at h
      · cases h
      · split at h
        · cases h
        · split at h
          · cases h
          · split at h
            · cases h
            · split at h
              · cases h
              · cases h
              · rename_i lists hlists
                cases h
                exact ⟨conformance, hconformance, hunsupported, lists, hlists, rfl⟩

end EtasFrontend.Residual
