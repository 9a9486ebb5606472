import EtasFrontend.Effects.TraceSpec

/-! The prior-evidence monitor: a guard before each target, checked over a trace. -/
namespace EtasFrontend.Effects
open EtasFrontend.Types

inductive PriorEvidenceState where
  | active | rejected
  deriving DecidableEq

structure ProductStep (σ : Type) where
  states : List σ
  rejecting : List σ

/-- The product automaton with the prior-evidence automaton as its only component. The second
argument of a step says whether the observation has the label `Missing`. The laws are what the
compiled automaton does: it stays active until that label. -/
structure PriorEvidenceProduct where
  State : Type
  [decEq : DecidableEq State]
  initialState : State
  stepBounded : State → Bool → Option (ProductStep State)
  componentState : State → Option PriorEvidenceState
  initial_active : componentState initialState = some .active
  active_stays : ∀ s, componentState s = some .active → stepBounded s false = some ⟨[s], []⟩
  active_rejects : ∀ s, componentState s = some .active → ∃ step, stepBounded s true = some step ∧
    (step.states = [] ∨ step.rejecting ≠ [] ∨
      ∃ next ∈ step.states, componentState next = some .rejected)

attribute [instance] PriorEvidenceProduct.decEq

inductive TemporalMonitorResult where
  | satisfied
  | violation
  | needsOutcomeEvidence
  | unknown
  deriving DecidableEq

structure AbstractState (product : PriorEvidenceProduct) where
  monitor : product.State
  priorGuardRequest : Bool
  deriving DecidableEq

inductive TraceRun (product : PriorEvidenceProduct) where
  | states (states : Finset (AbstractState product)) (incomplete : Bool)
  | violation

namespace TraceRun
variable {product : PriorEvidenceProduct}

def known (states : Finset (AbstractState product)) : TraceRun product := .states states false

def unknown : TraceRun product := .states ∅ true

end TraceRun

/-- Nested closures have the language of one. -/
def stripRepeat : ActionTraceDomain → ActionTraceDomain
  | .repeat nested => stripRepeat nested
  | trace => trace

/-- `satisfiesSpec` is the spec solver's. -/
structure SingleComponentMonitor where
  product : PriorEvidenceProduct
  coverage : EffectCoverage
  satisfiesSpec : TypeId → SymbolId → List TypeId → Bool
  guard : TraceSpecPattern
  target : TraceSpecPattern

namespace SingleComponentMonitor
variable (monitor : SingleComponentMonitor)

def guardMatches (effect : Effect) : Bool :=
  monitor.guard.matchesEffect monitor.coverage monitor.satisfiesSpec effect

def targetMatches (effect : Effect) : Bool :=
  monitor.target.matchesEffect monitor.coverage monitor.satisfiesSpec effect

/-- The label `Missing`: a target without a guard before it. -/
def missing (state : AbstractState monitor.product) (event : ActionEvent) : Bool :=
  monitor.targetMatches event.action && !state.priorGuardRequest

/-- An event that one of the patterns may match, but need not. -/
def undecided (event : ActionEvent) : Bool :=
  [monitor.guard, monitor.target].any fun pattern =>
    !pattern.matchesEffect monitor.coverage monitor.satisfiesSpec event.action &&
      pattern.mayMatchEffect monitor.coverage event.action

def stepViolates (event : ActionEvent) (state : AbstractState monitor.product) : Bool :=
  match monitor.product.stepBounded state.monitor (monitor.missing state event) with
  | none => false
  | some step => step.states.isEmpty || !step.rejecting.isEmpty ||
      step.states.any fun next => monitor.product.componentState next == some .rejected

def stepStates (event : ActionEvent) (state : AbstractState monitor.product) :
    Finset (AbstractState monitor.product) :=
  match monitor.product.stepBounded state.monitor (monitor.missing state event) with
  | none => ∅
  | some step => (step.states.map fun next =>
      ⟨next, state.priorGuardRequest || monitor.guardMatches event.action⟩).toFinset

def stepFails (event : ActionEvent) (state : AbstractState monitor.product) : Bool :=
  (monitor.product.stepBounded state.monitor (monitor.missing state event)).isNone

/-- The order in which the states are stepped does not matter. -/
def stepEvent (states : Finset (AbstractState monitor.product)) (event : ActionEvent) :
    TraceRun monitor.product :=
  if monitor.undecided event then .unknown
  else if ∃ state ∈ states, monitor.stepViolates event state = true then .violation
  else .states (states.biUnion (monitor.stepStates event))
    (decide (∃ state ∈ states, monitor.stepFails event state = true))

/-- The loop over the parts of a sequence. -/
def runSeq (run : ActionTraceDomain → Finset (AbstractState monitor.product) →
    Option (TraceRun monitor.product)) :
    List ActionTraceDomain → Finset (AbstractState monitor.product) → Bool →
      Option (TraceRun monitor.product)
  | [], current, incomplete => some (.states current incomplete)
  | part :: parts, current, incomplete =>
    match run part current with
    | none => none
    | some .violation => some .violation
    | some (.states next nextIncomplete) => runSeq run parts next (incomplete || nextIncomplete)

/-- The loop over the branches of a choice. -/
def runChoice (run : ActionTraceDomain → Option (TraceRun monitor.product)) :
    List ActionTraceDomain → Finset (AbstractState monitor.product) → Bool →
      Option (TraceRun monitor.product)
  | [], joined, incomplete => some (.states joined incomplete)
  | branch :: branches, joined, incomplete =>
    match run branch with
    | none => none
    | some .violation => some .violation
    | some (.states next nextIncomplete) =>
      runChoice run branches (joined ∪ next) (incomplete || nextIncomplete)

/-- The loop of a repetition, up to a number of turns. -/
def runRepeat (run : Finset (AbstractState monitor.product) → Option (TraceRun monitor.product)) :
    ℕ → Finset (AbstractState monitor.product) → Finset (AbstractState monitor.product) → Bool →
      Option (TraceRun monitor.product)
  | 0, _, _, _ => none
  | turns + 1, reached, pending, incomplete =>
    if pending = ∅ then some (.states reached incomplete)
    else
      match run pending with
      | none => none
      | some .violation => some .violation
      | some (.states next nextIncomplete) =>
        runRepeat run turns (reached ∪ next \ reached) (next \ reached)
          (incomplete || nextIncomplete)

/-- `run_trace`, with a bound on the depth of the calls and the turns of a repetition. -/
def runTrace (unknownNeedsOrder : EffectSet → Bool) :
    ℕ → ActionTraceDomain → Finset (AbstractState monitor.product) →
      Option (TraceRun monitor.product)
  | 0, _, _ => none
  | fuel + 1, trace, states =>
    if states = ∅ then some (.known states)
    else
      match trace with
      | .empty => some (.known states)
      | .event event => some (monitor.stepEvent states event)
      | .parameterCall _ _ _ => some .unknown
      | .taskAwait _ => some (.known states)
      | .taskStart _ body =>
        if body.hasParameterCalls || unknownNeedsOrder body.actionSet then some .unknown
        else some (.known states)
      | .parallel branches =>
        if branches.any ActionTraceDomain.hasParameterCalls ||
            unknownNeedsOrder (ActionTraceDomain.parallel branches).actionSet then some .unknown
        else some (.known states)
      | .seq parts => monitor.runSeq (runTrace unknownNeedsOrder fuel) parts states false
      | .choice branches =>
        if branches.isEmpty then some .unknown
        else monitor.runChoice (fun branch => runTrace unknownNeedsOrder fuel branch states)
          branches ∅ false
      | .repeat inner =>
        if !inner.hasParameterCalls && !unknownNeedsOrder inner.actionSet then some (.known states)
        else monitor.runRepeat (runTrace unknownNeedsOrder fuel (stripRepeat inner)) fuel states
          states false
      | .unknownOrder actions =>
        if unknownNeedsOrder actions then some .unknown else some (.known states)
      | .widened actions parameterCalls =>
        if !parameterCalls.isEmpty || unknownNeedsOrder actions then some .unknown
        else some (.known states)

def run (finalRejects : PriorEvidenceState → Bool) (unknownNeedsOrder : EffectSet → Bool)
    (fuel : ℕ) (trace : ActionTraceDomain) : Option TemporalMonitorResult :=
  match monitor.runTrace unknownNeedsOrder fuel trace {⟨monitor.product.initialState, false⟩} with
  | none => none
  | some .violation => some .violation
  | some (.states states incomplete) =>
    if ∃ state ∈ states,
        (monitor.product.componentState state.monitor).any finalRejects = true then some .violation
    else if incomplete then some .unknown
    else some .satisfied

def unknownNeedsOrder (actions : EffectSet) : Bool :=
  decide (∃ action ∈ actions, (monitor.target.mayMatchEffect monitor.coverage action ||
    monitor.guard.mayMatchEffect monitor.coverage action) = true)

/-- The run of the monitor in `require_before`. -/
def runPrior (fuel : ℕ) (trace : ActionTraceDomain) : Option TemporalMonitorResult :=
  monitor.run (· == .rejected) monitor.unknownNeedsOrder fuel trace

/-- Requests in the right order do not show that the guard was accepted. -/
def requireBefore (fuel : ℕ) (trace : ActionTraceDomain) : Option TemporalMonitorResult :=
  (monitor.runPrior fuel trace).map fun result =>
    if result = .satisfied ∧ ∃ action ∈ trace.actionSet, monitor.targetMatches action = true then
      .needsOutcomeEvidence
    else result

end SingleComponentMonitor
end EtasFrontend.Effects
