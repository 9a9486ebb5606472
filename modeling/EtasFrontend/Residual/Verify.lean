import EtasFrontend.Residual.PlanSources

/-! Verification of residual plans: what a lowering recorded is derived again and compared. -/
namespace EtasFrontend.Residual
open Lib Effects

inductive ResidualPlanFailure where
  | missingProjector
  | projection (reason : String)
  | identity (reason : String)
  | plan (reason : String)
  | verification (reason : String)

inductive ResidualIdentityError where
  | interrupted (reason : String)
  | resourceLimit (resource : String) (limit : ℕ)
  | unavailable (reason : String)

structure TraceMonitorProjector where
  residualContract : BehaviorContractRef
  /-- The template of the monitor for a conformance. -/
  projectTraceMonitor : ℕ → HirItemId → Except ResidualIdentityError MonitorTemplateId

structure ResidualPlanLimits where
  maxConformances : ℕ
  maxObligationsPerPlan : ℕ
  maxIdentityWork : ℕ
  maxGenericArguments : ℕ
  maxSites : ℕ

structure ResidualPlanInput where
  analysis : TraceSpecAnalysisOutput
  dispositions : TraceStaticDispositions
  sources : TraceSources
  projector : Option TraceMonitorProjector
  limits : ResidualPlanLimits
  /-- The debug texts of errors. -/
  identityText : TraceObligationIdentityError → String
  sourceText : TracePlanSourceError → String

structure LoweredTracePlan where
  requirement : TraceResidualRequirement
  contract : BehaviorContractRef
  monitor : MonitorTemplateId
  plan : SemanticResidualPlan
  references : List (ResidualObligationRef × TraceResidualClause)

structure ResidualMonitorPlans where
  eligibility : Map ℕ TraceResidualEligibility
  lowered : Map ℕ (Except ResidualPlanFailure LoweredTracePlan)

/-- The references are a set. -/
structure VerifiedTracePlan where
  requirement : TraceResidualRequirement
  contract : BehaviorContractRef
  monitor : MonitorTemplateId
  plan : SemanticResidualPlan
  references : List ResidualObligationRef

structure VerifiedResidualPlans where
  plans : Map ℕ VerifiedTracePlan
  failures : Map ℕ ResidualPlanFailure
  eligibility : Map ℕ TraceResidualEligibility

/-- A return from the middle of a verification: an error of the pipeline, or a failure of the
plan. -/
abbrev PlanStop := EffectPipelineError ⊕ ResidualPlanFailure

def PlanStop.failure (reason : String) : PlanStop := .inr (.verification reason)

namespace ResidualPlanInput
variable (input : ResidualPlanInput)

def contract : BehaviorContractRef :=
  match input.projector with
  | none => .sourceConstraint
  | some projector => projector.residualContract

def project (typeFactIndex : ℕ) (item : HirItemId) : Except PlanStop MonitorTemplateId :=
  match input.projector with
  | none => .error (.inr .missingProjector)
  | some projector =>
    match projector.projectTraceMonitor typeFactIndex item with
    | .ok monitor => .ok monitor
    | .error (.interrupted reason) => .error (.inl (.interrupted reason))
    | .error (.resourceLimit resource limit) =>
      .error (.inl (.analysisLimitExceeded resource limit))
    | .error (.unavailable reason) => .error (.inr (.projection reason))

/-- Conformances to consider, in the order of their indices. -/
def conformances : Except EffectPipelineError (List (ℕ × HirItemId)) :=
  let indices := input.dispositions.indices
  if indices.length > input.limits.maxConformances then
    .error (.analysisLimitExceeded "residual trace conformances" input.limits.maxConformances)
  else
    indices.mapM fun index =>
      match input.analysis.sourceConformance index with
      | some source => .ok (index, source.item)
      | none => .error (.invalidTraceSpecSourceSites
          "residual lowering has no checked source conformance")

/-- An analysis that is invalid for an item is reported elsewhere; it is no obligation. -/
def classify (index : ℕ) (item : HirItemId) : Except EffectPipelineError TraceResidualEligibility :=
  match classifyTraceResidual input.analysis input.dispositions index item with
  | .error (.invalidTraceSpecSourceSites _) => .ok (.unsupported .missingClauseFacts)
  | other => other

def traceObligationIdentity (request : TraceObligationIdentityInput) :
    Except TraceObligationIdentityError TraceObligationIdentity :=
  match input.sources.snapshots with
  | .error error => .error (.source error)
  | .ok () => (input.sources.identity request input.limits.maxIdentityWork).map Prod.fst

def identity (requirement : TraceResidualRequirement) (clause : TraceResidualClause)
    (contract : BehaviorContractRef) : Except PlanStop TraceObligationIdentity :=
  match input.traceObligationIdentity ⟨requirement.typeFactIndex, requirement.item,
      clause.alternativeIndex, clause.clauseIndex, contract, .traceContract, []⟩ with
  | .ok identity => .ok identity
  | .error (.interrupted reason) => .error (.inl (.interrupted reason))
  | .error .resourceLimit =>
    .error (.inl (.analysisLimitExceeded "residual obligation identity work"
      input.limits.maxIdentityWork))
  | .error error => .error (.inr (.identity (input.identityText error)))

/-- One reference: its identity is derived from the clause, and its component implements it. -/
def verifyReference (requirement : TraceResidualRequirement) (contract : BehaviorContractRef)
    (lowered : LoweredTracePlan) (references : List ResidualObligationRef)
    (entry : ResidualObligationRef × TraceResidualClause) :
    Except PlanStop (List ResidualObligationRef) := do
  let identity ← input.identity requirement entry.2 contract
  if entry.1.obligation ≠ identity.id then
    throw (.failure "plan obligation identity differs from its source")
  match validateReferenceBindings identity.id identity.inputs entry.1
      input.limits.maxGenericArguments with
  | .error _ => throw (.failure "plan obligation bindings differ from its source")
  | .ok () =>
    match lowered.plan.componentFor identity.id with
    | some (.trace obligation) =>
      if obligation.identity ≠ identity.inputs ∨
          obligation.kind ≠ .traceContract lowered.monitor then
        throw (.failure "plan component does not implement the checked monitor")
      if references.contains entry.1 then
        throw (.failure "duplicate residual obligation reference")
      return references ++ [entry.1]
    | _ => throw (.failure "plan obligation has no trace component")

def sourceInput (requirement : TraceResidualRequirement) (contract : BehaviorContractRef)
    (lowered : LoweredTracePlan) (references : List ResidualObligationRef) :
    TracePlanSourceInput where
  plan := lowered.plan
  analysis := input.analysis
  sources := input.sources
  expectedContract := contract
  expected := references
  bindings := lowered.references.map fun entry =>
    ⟨entry.1, requirement.typeFactIndex, entry.2.alternativeIndex, entry.2.clauseIndex, []⟩
  limits :=
    { maxObligations := input.limits.maxObligationsPerPlan
      maxBindings := input.limits.maxObligationsPerPlan
      maxClauseSites := input.limits.maxSites
      maxTotalIdentityWork := input.limits.maxIdentityWork
      maxGenericArguments := input.limits.maxGenericArguments }

def runVerifyPlan (requirement : TraceResidualRequirement) (lowered : LoweredTracePlan) :
    Except PlanStop VerifiedTracePlan := do
  let contract := input.contract
  if lowered.requirement ≠ requirement ∨ lowered.contract ≠ contract then
    throw (.failure "lowered plan requirement or contract changed")
  let monitor ← input.project requirement.typeFactIndex requirement.item
  if monitor ≠ lowered.monitor then
    throw (.failure "plan monitor differs from the checked canonical projection")
  let clauses := requirement.clauses
  if lowered.references.length ≠ clauses.length ∨
      lowered.plan.obligations.length ≠ clauses.length ∨
      ((lowered.references.zip clauses).any fun entry => entry.1.2 ≠ entry.2) = true then
    throw (.failure "plan obligations differ from the residual requirement")
  let references ← lowered.references.foldlM
    (input.verifyReference requirement contract lowered) []
  match validateTracePlanSources (input.sourceInput requirement contract lowered references) with
  | .error (.interrupted reason) => throw (.inl (.interrupted reason))
  | .error error => throw (.failure ("plan source linkage: " ++ input.sourceText error))
  | .ok () => return ⟨lowered.requirement, contract, lowered.monitor, lowered.plan, references⟩

def verifyPlan (requirement : TraceResidualRequirement) (lowered : LoweredTracePlan) :
    Except EffectPipelineError (Except ResidualPlanFailure VerifiedTracePlan) :=
  match input.runVerifyPlan requirement lowered with
  | .ok verified => .ok (.ok verified)
  | .error (.inr failure) => .ok (.error failure)
  | .error (.inl error) => .error error

/-- The local variables of the loop over the conformances. -/
structure VerifyState where
  lowered : Map ℕ (Except ResidualPlanFailure LoweredTracePlan)
  output : VerifiedResidualPlans

/-- A plan is verified where one is needed, and there is none where none is needed. -/
def recordOutcome (index : ℕ) (actual : TraceResidualEligibility)
    (entry : Option (Except ResidualPlanFailure LoweredTracePlan)) (output : VerifiedResidualPlans) :
    Except EffectPipelineError VerifiedResidualPlans :=
  match actual, entry with
  | .needsConcrete requirement, some (.ok lowered) =>
    match input.verifyPlan requirement lowered with
    | .error error => .error error
    | .ok (.ok verified) => .ok { output with plans := output.plans.insert index verified }
    | .ok (.error failure) => .ok { output with failures := output.failures.insert index failure }
  | .needsConcrete _, some (.error failure) =>
    .ok { output with failures := output.failures.insert index failure }
  | .needsConcrete _, none =>
    .error (.invalidTraceSpecSourceSites "eligible residual conformance has no lowering result")
  | _, some _ =>
    .error (.invalidTraceSpecSourceSites "residual plan was lowered for an ineligible conformance")
  | _, none => .ok output

def verifyConformance (eligibility : Map ℕ TraceResidualEligibility) (state : VerifyState)
    (entry : ℕ × HirItemId) : Except EffectPipelineError VerifyState := do
  match eligibility.get entry.1 with
  | none => throw (.invalidTraceSpecSourceSites "residual eligibility is missing")
  | some recorded =>
    let actual ← input.classify entry.1 entry.2
    if recorded ≠ actual then
      throw (.invalidTraceSpecSourceSites
        "residual eligibility disagrees with its checked analysis")
    let output ← input.recordOutcome entry.1 actual (state.lowered.get entry.1) state.output
    return {
      lowered := state.lowered.remove entry.1
      output := { output with eligibility := output.eligibility.insert entry.1 actual } }

end ResidualPlanInput

def VerifiedResidualPlans.default : VerifiedResidualPlans := ⟨∅, ∅, ∅⟩

def verifyResidualPlans (input : ResidualPlanInput) (lowered : ResidualMonitorPlans) :
    Except EffectPipelineError VerifiedResidualPlans := do
  let expected ← input.conformances
  if expected.length ≠ lowered.eligibility.toList.length ∨
      (expected.any fun entry => (lowered.eligibility.get entry.1).isNone) = true ∨
      (lowered.lowered.toList.any fun entry => (lowered.eligibility.get entry.1).isNone) = true then
    throw (.invalidTraceSpecSourceSites
      "residual monitor plans do not cover the classified conformances")
  let state ← expected.foldlM (input.verifyConformance lowered.eligibility)
    ⟨lowered.lowered, .default⟩
  return state.output

end EtasFrontend.Residual
