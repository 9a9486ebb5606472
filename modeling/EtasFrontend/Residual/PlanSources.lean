import EtasFrontend.Residual.Eligibility
import Mathlib.Algebra.GroupWithZero.Nat

/-! Obligations, references to them, and the check of a plan against the sources. -/
namespace EtasFrontend.Residual
open Lib Effects

abbrev ObligationId := ℕ
abbrev MonitorTemplateId := ℕ

inductive BehaviorContractRef where
  | sourceConstraint
  | contract (id : ℕ)
  deriving DecidableEq

inductive ResidualRuleKind where
  | traceContract | other
  deriving DecidableEq

structure ResidualRule where
  kind : ResidualRuleKind
  fingerprint : ℕ
  deriving DecidableEq

structure ObligationIdentityInputs where
  origin : ℕ
  owner : ℕ
  contract : BehaviorContractRef
  spec : ℕ
  clause : ClauseId
  rule : ResidualRule
  scope : ℕ
  activation : ℕ
  staticBindings : List (GenericParameterId × StaticBindingRecipe)
  deriving DecidableEq

inductive GenericArgumentIdentity where
  | type (ty : ℕ)
  | typeParameter (parameter : GenericParameterId)
  | effectRow (row : ℕ)
  | effectRowParameter (parameter : GenericParameterId)
  deriving DecidableEq

structure ResidualObligationRef where
  obligation : ObligationId
  substitutions : List (GenericParameterId × GenericArgumentIdentity)
  deriving DecidableEq

inductive ResidualKind where
  | traceContract (monitor : MonitorTemplateId)
  | other
  deriving DecidableEq

structure ResidualObligation where
  id : ObligationId
  identity : ObligationIdentityInputs
  kind : ResidualKind

inductive SemanticPlanComponent where
  | trace (obligation : ResidualObligation)
  | other

/-- The obligations of a plan are a set by their identity. -/
structure SemanticResidualPlan where
  obligations : List ResidualObligation
  distinct : (obligations.map ResidualObligation.id).Nodup
  componentFor : ObligationId → Option SemanticPlanComponent

structure TraceObligationIdentity where
  id : ObligationId
  inputs : ObligationIdentityInputs

inductive TraceObligationReferenceError where
  | bindingLimit
  | obligationMismatch
  | bindingSetMismatch
  | bindingKindMismatch (parameter : GenericParameterId)
  | invalidSourceBinding (parameter : GenericParameterId)

inductive TraceObligationSourceError where
  | snapshotLimit | snapshotBytesLimit | duplicateSnapshot | missingAnalysis | missingOwner
  | missingSpecInstance | missingClause | missingClauseSite | missingSnapshot | ownerMismatch
  | specInstanceMismatch | clauseMismatch | originMismatch | ruleMismatch
  | invalidIdentity (reason : String)
  | interrupted (reason : String)

inductive TraceCallableScopeError where
  | analysis (error : EffectPipelineError)
  | source (error : TraceObligationSourceError)
  | missingItem | missingOwner | missingSnapshot | ownerMismatch
  | invalidIdentity (reason : String)

inductive TraceObligationIdentityError where
  | scope (error : TraceCallableScopeError)
  | analysis (error : EffectPipelineError)
  | source (error : TraceObligationSourceError)
  | missingSpecInstance | missingClause | missingClauseSite | missingSnapshot | invalidBinder
  | resourceLimit
  | invalidIdentity (reason : String)
  | interrupted (reason : String)

/-- A reference stands for its fingerprint. -/
inductive TracePlanSourceError where
  | obligationLimit | bindingLimit | clauseSiteLimit | identityWorkLimit
  | duplicateBinding (reference : ResidualObligationRef)
  | unexpectedBinding (reference : ResidualObligationRef)
  | missingBinding (reference : ResidualObligationRef)
  | unexpectedObligation (id : ObligationId)
  | missingObligation (id : ObligationId)
  | sourceIdentityMismatch (id : ObligationId)
  | sourceIdentity (id : ObligationId) (reference : ResidualObligationRef)
      (reason : TraceObligationIdentityError)
  | snapshots (error : TraceObligationSourceError)
  | interrupted (reason : String)
  | obligation (id : ObligationId) (reference : ResidualObligationRef)
      (reason : TraceObligationSourceError)
  | reference (id : ObligationId) (reference : ResidualObligationRef)
      (reason : TraceObligationReferenceError)

/-! References. A reference may specialise the parameters, but not others and not to another kind. -/

def checkBinding (reference : ResidualObligationRef)
    (binding : GenericParameterId × StaticBindingRecipe) :
    Except TraceObligationReferenceError Unit :=
  match reference.substitutions.lookup binding.1 with
  | none => .error .bindingSetMismatch
  | some value =>
    match binding.2, value with
    | .typeParameter id, .type _ | .typeParameter id, .typeParameter _
    | .effectRowParameter id, .effectRow _ | .effectRowParameter id, .effectRowParameter _ =>
      if id = binding.1 then .ok () else .error (.invalidSourceBinding binding.1)
    | .typeParameter id, _ | .effectRowParameter id, _ =>
      if id = binding.1 then .error (.bindingKindMismatch binding.1)
      else .error (.invalidSourceBinding binding.1)
    | _, _ => .error (.invalidSourceBinding binding.1)

def validateReferenceBindings (id : ObligationId) (inputs : ObligationIdentityInputs)
    (reference : ResidualObligationRef) (maxBindings : ℕ) :
    Except TraceObligationReferenceError Unit :=
  if inputs.staticBindings.length > maxBindings ∨ reference.substitutions.length > maxBindings then
    .error .bindingLimit
  else if reference.obligation ≠ id then .error .obligationMismatch
  else if reference.substitutions.length ≠ inputs.staticBindings.length then
    .error .bindingSetMismatch
  else inputs.staticBindings.forM (checkBinding reference)

structure TraceObligationIdentityInput where
  typeFactIndex : ℕ
  item : HirItemId
  alternativeIndex : ℕ
  clauseIndex : ℕ
  contract : BehaviorContractRef
  ruleKind : ResidualRuleKind
  ruleSuffix : List ℕ

structure TracePlanSourceBinding where
  reference : ResidualObligationRef
  typeFactIndex : ℕ
  alternativeIndex : ℕ
  clauseIndex : ℕ
  ruleSuffix : List ℕ

/-- What the sources say. The identities are digests of the snapshots; `identity` also takes the
work left and gives back what it leaves of it. -/
structure TraceSources where
  snapshots : Except TraceObligationSourceError Unit
  /-- The structural paths of the clause sites. -/
  clauseSites : List (ClauseId × List ℕ)
  identity : TraceObligationIdentityInput → ℕ →
    Except TraceObligationIdentityError (TraceObligationIdentity × ℕ)
  validateSourceLink : TracePlanSourceBinding → ResidualObligation →
    Except TraceObligationSourceError Unit

structure TracePlanSourceLimits where
  maxObligations : ℕ
  maxBindings : ℕ
  maxClauseSites : ℕ
  maxTotalIdentityWork : ℕ
  maxGenericArguments : ℕ

structure TracePlanSourceInput where
  plan : SemanticResidualPlan
  analysis : TraceSpecAnalysisOutput
  sources : TraceSources
  expectedContract : BehaviorContractRef
  /-- Without repetitions, in the order of the set. -/
  expected : List ResidualObligationRef
  bindings : List TracePlanSourceBinding
  limits : TracePlanSourceLimits

structure IdentityKey where
  typeFactIndex : ℕ
  alternativeIndex : ℕ
  clauseIndex : ℕ
  rule : ℕ
  deriving DecidableEq

/-- The local variables of the loop over the bindings. -/
structure PlanSourceState where
  seen : List ResidualObligationRef
  seenIds : List ObligationId
  identities : List (IdentityKey × TraceObligationIdentity)
  remainingWork : ℕ

def chargeWork (remaining amount : ℕ) : Except TracePlanSourceError ℕ :=
  if amount ≤ remaining then .ok (remaining - amount) else .error .identityWorkLimit

def recipeWork : StaticBindingRecipe → ℕ
  | .typeTemplate template => 1 + 3 * template.nodes + 3 * (template.edges + template.bytes)
  | _ => 1

def identityFailure (id : ObligationId) (reference : ResidualObligationRef) :
    TraceObligationIdentityError → TracePlanSourceError
  | .resourceLimit => .identityWorkLimit
  | .interrupted reason | .source (.interrupted reason)
  | .analysis (.interrupted reason) | .scope (.source (.interrupted reason))
  | .scope (.analysis (.interrupted reason)) => .interrupted reason
  | reason => .sourceIdentity id reference reason

def linkFailure (id : ObligationId) (reference : ResidualObligationRef) :
    TraceObligationSourceError → TracePlanSourceError
  | .interrupted reason => .interrupted reason
  | reason => .obligation id reference reason

/-- The identity for a key, derived once. -/
def keyedIdentity (input : TracePlanSourceInput) (item : HirItemId) (obligation : ResidualObligation)
    (binding : TracePlanSourceBinding) (identities : List (IdentityKey × TraceObligationIdentity))
    (remaining : ℕ) : Except TracePlanSourceError
      (TraceObligationIdentity × List (IdentityKey × TraceObligationIdentity) × ℕ) :=
  let key : IdentityKey := ⟨binding.typeFactIndex, binding.alternativeIndex, binding.clauseIndex,
    obligation.identity.rule.fingerprint⟩
  match identities.lookup key with
  | some identity => .ok (identity, identities, remaining)
  | none =>
    match input.sources.identity ⟨binding.typeFactIndex, item, binding.alternativeIndex,
        binding.clauseIndex, input.expectedContract, obligation.identity.rule.kind,
        binding.ruleSuffix⟩ remaining with
    | .error error => .error (identityFailure obligation.id binding.reference error)
    | .ok (identity, remaining) => .ok (identity, (key, identity) :: identities, remaining)

def checkPlanBinding (input : TracePlanSourceInput) (state : PlanSourceState)
    (binding : TracePlanSourceBinding) : Except TracePlanSourceError PlanSourceState := do
  let remaining ← chargeWork state.remainingWork
    (1 + binding.ruleSuffix.length + binding.reference.substitutions.length)
  if !input.expected.contains binding.reference then throw (.unexpectedBinding binding.reference)
  if state.seen.contains binding.reference then throw (.duplicateBinding binding.reference)
  let id := binding.reference.obligation
  match input.plan.obligations.find? fun obligation => obligation.id == id with
  | none => throw (.unexpectedObligation id)
  | some obligation =>
    match input.analysis.sourceConformance binding.typeFactIndex with
    | none => throw (.obligation id binding.reference .missingAnalysis)
    | some source =>
      match source.sourceInstance with
      | none => throw (.obligation id binding.reference .missingSpecInstance)
      | some spec =>
        match input.sources.clauseSites.lookup obligation.identity.clause with
        | none => throw (.obligation id binding.reference .missingClauseSite)
        | some site =>
          let recipes := spec.arguments ++ obligation.identity.staticBindings.map Prod.snd
          let remaining ← chargeWork remaining
            (spec.structuralPath.length + 3 * site.length + (recipes.map recipeWork).sum)
          (input.sources.validateSourceLink binding obligation).mapError
            (linkFailure id binding.reference)
          let keyed ← keyedIdentity input source.item obligation binding state.identities remaining
          if keyed.1.id ≠ id ∨ keyed.1.inputs ≠ obligation.identity then
            throw (.sourceIdentityMismatch id)
          let remaining ← chargeWork keyed.2.2 obligation.identity.staticBindings.length
          (validateReferenceBindings id obligation.identity binding.reference
            input.limits.maxGenericArguments).mapError (.reference id binding.reference)
          return {
            seen := binding.reference :: state.seen
            seenIds := id :: state.seenIds
            identities := keyed.2.1
            remainingWork := remaining }

def checkExpected (seen : List ResidualObligationRef) (remaining : ℕ)
    (reference : ResidualObligationRef) : Except TracePlanSourceError ℕ := do
  let remaining ← chargeWork remaining (1 + reference.substitutions.length)
  if !seen.contains reference then throw (.missingBinding reference)
  return remaining

def checkCovered (seenIds : List ObligationId) (remaining : ℕ) (obligation : ResidualObligation) :
    Except TracePlanSourceError ℕ := do
  let remaining ← chargeWork remaining 1
  if !seenIds.contains obligation.id then throw (.missingObligation obligation.id)
  return remaining

def validateTracePlanSources (input : TracePlanSourceInput) : Except TracePlanSourceError Unit := do
  if input.plan.obligations.length > input.limits.maxObligations then throw .obligationLimit
  if input.bindings.length > input.limits.maxBindings ||
      input.expected.length > input.limits.maxBindings then throw .bindingLimit
  if input.sources.clauseSites.length > input.limits.maxClauseSites then throw .clauseSiteLimit
  input.sources.snapshots.mapError fun error =>
    match error with
    | .interrupted reason => .interrupted reason
    | error => .snapshots error
  let state ← input.bindings.foldlM (checkPlanBinding input)
    ⟨[], [], [], input.limits.maxTotalIdentityWork⟩
  let remaining ← input.expected.foldlM (checkExpected state.seen) state.remainingWork
  let _ ← input.plan.obligations.foldlM (checkCovered state.seenIds) remaining

/-! What a check that passes has seen. -/

theorem checkCovered_ok {seenIds : List ObligationId} {remaining remaining' : ℕ}
    {obligation : ResidualObligation} (h : checkCovered seenIds remaining obligation = .ok remaining') :
    obligation.id ∈ seenIds := by
  unfold checkCovered at h
  obtain ⟨charged, -, h⟩ := bind_eq_ok.mp h
  dsimp only at h
  split at h
  · cases h
  · next hseen => simpa using hseen

theorem checkPlanBinding_seenIds {input : TracePlanSourceInput} {state state' : PlanSourceState}
    {binding : TracePlanSourceBinding} (h : checkPlanBinding input state binding = .ok state') :
    state'.seenIds = binding.reference.obligation :: state.seenIds := by
  unfold checkPlanBinding at h
  obtain ⟨charged, -, h⟩ := bind_eq_ok.mp h
  dsimp only at h
  split at h
  · cases h
  · split at h
    · cases h
    · split at h
      · cases h
      · split at h
        · cases h
        · split at h
          · cases h
          · split at h
            · cases h
            · obtain ⟨charged, -, h⟩ := bind_eq_ok.mp h
              obtain ⟨link, -, h⟩ := bind_eq_ok.mp h
              obtain ⟨keyed, -, h⟩ := bind_eq_ok.mp h
              split at h
              · cases h
              · obtain ⟨charged, -, h⟩ := bind_eq_ok.mp h
                obtain ⟨bindings, -, h⟩ := bind_eq_ok.mp h
                cases h
                rfl

theorem validateTracePlanSources_covers {input : TracePlanSourceInput}
    (h : validateTracePlanSources input = .ok ()) :
    ∀ obligation ∈ input.plan.obligations,
      ∃ binding ∈ input.bindings, binding.reference.obligation = obligation.id := by
  unfold validateTracePlanSources at h
  dsimp only at h
  split at h
  · cases h
  · split at h
    · cases h
    · split at h
      · cases h
      · obtain ⟨snapshots, -, h⟩ := bind_eq_ok.mp h
        obtain ⟨state, hbindings, h⟩ := bind_eq_ok.mp h
        obtain ⟨remaining, -, h⟩ := bind_eq_ok.mp h
        obtain ⟨rest, hcovered, -⟩ := bind_eq_ok.mp h
        have hseen : ∀ id ∈ state.seenIds, ∃ binding ∈ [] ++ input.bindings,
            binding.reference.obligation = id := by
          refine foldlM_ok_complete (p := fun done (state : PlanSourceState) =>
            ∀ id ∈ state.seenIds, ∃ binding ∈ done, binding.reference.obligation = id) ?_
            (fun id hid => by cases hid) hbindings
          intro done s binding s' hs hstep id hid
          rw [checkPlanBinding_seenIds hstep] at hid
          obtain rfl | hid := List.mem_cons.mp hid
          · exact ⟨binding, List.mem_append_right _ (List.mem_singleton.mpr rfl), rfl⟩
          · obtain ⟨other, hother, hid⟩ := hs id hid
            exact ⟨other, List.mem_append_left _ hother, hid⟩
        have hall : ∀ obligation ∈ [] ++ input.plan.obligations,
            obligation.id ∈ state.seenIds := by
          have hnil : ∀ obligation ∈ ([] : List ResidualObligation),
              obligation.id ∈ state.seenIds := nofun
          refine foldlM_ok_complete (p := fun done (_ : ℕ) =>
            ∀ obligation ∈ done, obligation.id ∈ state.seenIds) ?_ hnil hcovered
          intro done s obligation s' hs hstep other hother
          obtain hother | hother := List.mem_append.mp hother
          · exact hs other hother
          · rw [List.mem_singleton.mp hother]
            exact checkCovered_ok hstep
        exact fun obligation hobligation => hseen _ (hall obligation hobligation)

end EtasFrontend.Residual
