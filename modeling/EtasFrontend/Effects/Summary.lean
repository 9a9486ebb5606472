import EtasFrontend.Lib.Keyed
import EtasFrontend.Effects.Coverage
import EtasFrontend.Effects.Trace

/-! The summary of a body that inference computes, its join and its order. An operation that
mutates its receiver returns the new value and whether it changed. -/
namespace EtasFrontend.Effects
open Lib EtasFrontend.Types

/-- Data a summary only stores, compares and sorts, with the derived orders of the source. -/
structure SummaryData where
  Outcome : Type
  ExitSite : Type
  Gap : Type
  HandlerGap : Type
  RequestSignature : Type
  ResidualRef : Type
  RequirementFact : Type
  [outcomeEq : DecidableEq Outcome]
  [exitSiteEq : DecidableEq ExitSite]
  [gapEq : DecidableEq Gap]
  [handlerGapEq : DecidableEq HandlerGap]
  [requestSignatureEq : DecidableEq RequestSignature]
  [residualRefEq : DecidableEq ResidualRef]
  [requirementFactEq : DecidableEq RequirementFact]
  outcomeLe : Outcome → Outcome → Bool
  exitSiteLe : ExitSite → ExitSite → Bool
  effectLe : Effect → Effect → Bool
  debug : ActionTraceDomain → String

attribute [instance] SummaryData.outcomeEq SummaryData.exitSiteEq SummaryData.gapEq
  SummaryData.handlerGapEq SummaryData.requestSignatureEq SummaryData.residualRefEq
  SummaryData.requirementFactEq

/-- `extend` of a set, with the comparison of its size before and after. -/
def unionAssign {α : Type} [DecidableEq α] (s t : Finset α) : Finset α × Bool :=
  (s ∪ t, (s ∪ t).card != s.card)

def EffectRow.unionAssign (row other : EffectRow) : EffectRow × Bool :=
  let effects := Effects.unionAssign row.effects other.effects
  if row.openVar.isNone && other.openVar.isSome then (⟨effects.1, other.openVar⟩, true)
  else (⟨effects.1, row.openVar⟩, effects.2)

def rowLessEqual (left right : EffectRow) : Bool :=
  decide (left.effects ⊆ right.effects) &&
    match left.openVar, right.openVar with
    | none, _ => true
    | some left, some right => left == right
    | some _, none => false

structure ActionRequestInstance (D : SummaryData) where
  action : Effect
  typeBindings : Option (List (String × TypeId))
  signature : Option D.RequestSignature
  deriving DecidableEq

structure ParameterRequest where
  target : ParameterCallTarget
  parameter : String
  span : Span
  excluded : EffectSet
  deriving DecidableEq

inductive RequestInstantiationSummary (D : SummaryData) where
  | available (actions : Finset (ActionRequestInstance D)) (parameters : Finset ParameterRequest)
  | unavailable
  deriving DecidableEq

variable {D : SummaryData}

namespace RequestInstantiationSummary

def lessEqual : RequestInstantiationSummary D → RequestInstantiationSummary D → Bool
  | _, .unavailable => true
  | .unavailable, _ => false
  | .available actions parameters, .available rhs rparams =>
    decide (actions ⊆ rhs) && decide (parameters ⊆ rparams)

def unionAssign :
    RequestInstantiationSummary D → RequestInstantiationSummary D →
      RequestInstantiationSummary D × Bool
  | .available actions parameters, .available rhs rparams =>
    (.available (actions ∪ rhs) (parameters ∪ rparams),
      (actions.card, parameters.card) != ((actions ∪ rhs).card, (parameters ∪ rparams).card))
  | .unavailable, _ => (.unavailable, false)
  | _, .unavailable => (.unavailable, true)

/-- Handled requests go, and a callback can no longer make them. -/
def subtractHandled (coverage : EffectCoverage) (handled : EffectRow) :
    RequestInstantiationSummary D → RequestInstantiationSummary D
  | .available actions parameters =>
    .available
      (actions.filter fun request =>
        ¬ ∃ handler ∈ handled.effects, coverage.covers handler request.action = true)
      (parameters.image fun parameter =>
        { parameter with excluded := parameter.excluded ∪ handled.effects })
  | .unavailable => .unavailable

end RequestInstantiationSummary

/-! Determinism and support. -/

inductive Determinism where
  | deterministic | runtimeMediated | nonDeterministic
  deriving DecidableEq

def Determinism.rank : Determinism → ℕ
  | .deterministic => 0 | .runtimeMediated => 1 | .nonDeterministic => 2

def Determinism.joinAssign (self other : Determinism) : Determinism × Bool :=
  let joined := if self.rank ≤ other.rank then other else self
  (joined, joined != self)

def joinIndependentDeterminism (left right : Option Determinism) : Option Determinism × Bool :=
  match left, right with
  | some left, some right => let (joined, changed) := left.joinAssign right; (some joined, changed)
  | some _, none => (none, true)
  | none, _ => (none, false)

inductive HostRequirementKind where
  | agentic | toolCall | hostAuthority | durableMemory | approval | checkpoint | time | network
  | tcp | stream | tls | browser | console | fileIo | command | secretAccess | compiler
  deriving DecidableEq

inductive InterpreterFeatureKind where
  | effectHandler | resume | retry | checkpoint | workflowOrchestration | taskScheduler
  deriving DecidableEq

inductive FrontendRejectionReason where
  | unresolvedEffect | unsupportedHandler | escapedEffect | missingRequirement
  deriving DecidableEq

inductive InterpreterSupport where
  | localOnly
  | requiresHost (host : Finset HostRequirementKind)
  | requiresInterpreterOrchestration (host : Finset HostRequirementKind)
      (features : Finset InterpreterFeatureKind)
  | rejected (reason : FrontendRejectionReason)
  deriving DecidableEq

namespace InterpreterSupport

def lessEqual (self other : InterpreterSupport) : Bool :=
  if self = other then true
  else
    match self, other with
    | .localOnly, _ => true
    | _, .rejected _ => true
    | .rejected _, _ => false
    | .requiresHost left, .requiresHost right => decide (left ⊆ right)
    | .requiresHost left, .requiresInterpreterOrchestration right _ => decide (left ⊆ right)
    | .requiresInterpreterOrchestration left features,
        .requiresInterpreterOrchestration right features' =>
      decide (left ⊆ right) && decide (features ⊆ features')
    | .requiresInterpreterOrchestration _ _, .requiresHost _ => false
    | .requiresHost _, .localOnly | .requiresInterpreterOrchestration _ _, .localOnly => false

def joined : InterpreterSupport → InterpreterSupport → InterpreterSupport
  | .rejected reason, _ => .rejected reason
  | _, .rejected reason => .rejected reason
  | .requiresInterpreterOrchestration host features,
      .requiresInterpreterOrchestration host' features' =>
    .requiresInterpreterOrchestration (host ∪ host') (features ∪ features')
  | .requiresInterpreterOrchestration host features, .requiresHost host' =>
    .requiresInterpreterOrchestration (host ∪ host') features
  | .requiresHost host', .requiresInterpreterOrchestration host features =>
    .requiresInterpreterOrchestration (host ∪ host') features
  | .requiresInterpreterOrchestration host features, .localOnly =>
    .requiresInterpreterOrchestration host features
  | .localOnly, .requiresInterpreterOrchestration host features =>
    .requiresInterpreterOrchestration host features
  | .requiresHost left, .requiresHost right => .requiresHost (left ∪ right)
  | .requiresHost host, .localOnly => .requiresHost host
  | .localOnly, .requiresHost host => .requiresHost host
  | .localOnly, .localOnly => .localOnly

def joinAssign (self other : InterpreterSupport) : InterpreterSupport × Bool :=
  (self.joined other, self.joined other != self)

end InterpreterSupport

def ActionTraceDomain.choiceAssign (debug : ActionTraceDomain → String)
    (self other : ActionTraceDomain) : ActionTraceDomain × Bool :=
  let joined := choiceTrace debug self other
  (joined, joined != self)

def ActionTraceDomain.seqAssign (self other : ActionTraceDomain) : ActionTraceDomain × Bool :=
  let joined := seqTrace self other
  (joined, joined != self)

structure ExitTraceFact (D : SummaryData) where
  outcome : D.Outcome
  trace : ActionTraceDomain
  deriving DecidableEq

/-- A possible end of a callback. `site` is its target, output, source, arguments and enclosing
handlers. -/
structure ParameterExitFact (D : SummaryData) where
  site : D.ExitSite
  handlerFree : Option Bool
  enclosingHandled : Option EffectRow
  before : ActionTraceDomain
  deriving DecidableEq

structure CallableExitSummary (D : SummaryData) where
  exits : List (ExitTraceFact D)
  gaps : Finset D.Gap
  parameterExits : List (ParameterExitFact D)
  handlerGaps : Finset D.HandlerGap
  deriving DecidableEq

def joinHandlerFree (existing incoming : Option Bool) : Option Bool × Bool :=
  if existing ≠ incoming ∧ existing.isSome then (none, true) else (existing, false)

/-- Rows with different tails leave nothing known. -/
def joinEnclosingHandled (existing incoming : Option EffectRow) : Option EffectRow × Bool :=
  match existing, incoming with
  | some left, some right =>
    if left.openVar.isSome && right.openVar.isSome && left.openVar != right.openVar then (none, true)
    else let (row, changed) := left.unionAssign right; (some row, changed)
  | some _, none => (none, true)
  | none, _ => (none, false)

/-- `record`: exits by outcome. -/
def exitEntries (D : SummaryData) : Keyed (ExitTraceFact D) D.Outcome where
  key exit := exit.outcome
  join existing exit :=
    let (trace, changed) := existing.trace.choiceAssign D.debug exit.trace
    ({ existing with trace }, changed)
  le left right := D.outcomeLe left.outcome right.outcome

/-- `record_parameter_exit`: exits by site. -/
def parameterExitEntries (D : SummaryData) : Keyed (ParameterExitFact D) D.ExitSite where
  key exit := exit.site
  join existing exit :=
    let (before, changed) := existing.before.choiceAssign D.debug exit.before
    let (handlerFree, changed') := joinHandlerFree existing.handlerFree exit.handlerFree
    let (enclosingHandled, changed'') :=
      joinEnclosingHandled existing.enclosingHandled exit.enclosingHandled
    ({ existing with before, handlerFree, enclosingHandled }, changed || changed' || changed'')
  le left right := D.exitSiteLe left.site right.site

def CallableExitSummary.joinAssign (self other : CallableExitSummary D) :
    CallableExitSummary D × Bool :=
  let (exits, changed) := (exitEntries D).recordAll self.exits other.exits
  let (parameterExits, changed') :=
    (parameterExitEntries D).recordAll self.parameterExits other.parameterExits
  let (handlerGaps, changed'') := unionAssign self.handlerGaps other.handlerGaps
  let (gaps, changed''') := unionAssign self.gaps other.gaps
  (⟨exits, gaps, parameterExits, handlerGaps⟩, changed || changed' || changed'' || changed''')

structure DefaultHandlerContribution where
  action : Effect
  produced : EffectRow
  deriving DecidableEq

structure DefaultHandlerEffects where
  direct : EffectRow
  handlers : List DefaultHandlerContribution
  deriving DecidableEq

/-- `union_handler`: causes by action. -/
def handlerEntries (D : SummaryData) : Keyed DefaultHandlerContribution Effect where
  key handler := handler.action
  join existing handler :=
    let (produced, changed) := existing.produced.unionAssign handler.produced
    ({ existing with produced }, changed)
  le left right := D.effectLe left.action right.action

/-- Everything that escapes, directly or from a default handler. -/
def DefaultHandlerEffects.escaping (effects : DefaultHandlerEffects) : EffectRow :=
  effects.handlers.foldl (fun row handler => (row.unionAssign handler.produced).1) effects.direct

structure EffectSummary (D : SummaryData) where
  handlerRequests : RequestInstantiationSummary D
  defaultHandlerEffects : Option DefaultHandlerEffects
  exits : Option (CallableExitSummary D)
  escapingEffects : EffectRow
  requestedActions : EffectRow
  defaultActions : EffectRow
  handledActions : EffectRow
  actionTrace : ActionTraceDomain
  residualChecks : Finset D.ResidualRef
  traceSpecObligations : Finset D.RequirementFact
  requirements : Finset D.RequirementFact
  determinism : Determinism
  independentDeterminism : Option Determinism
  support : InterpreterSupport
  deriving DecidableEq

namespace EffectSummary

def default : EffectSummary D where
  handlerRequests := .available ∅ ∅
  defaultHandlerEffects := none
  exits := none
  escapingEffects := .empty
  requestedActions := .empty
  defaultActions := .empty
  handledActions := .empty
  actionTrace := .empty
  residualChecks := ∅
  traceSpecObligations := ∅
  requirements := ∅
  determinism := .deterministic
  independentDeterminism := some .deterministic
  support := .localOnly

def directEscapingEffects (summary : EffectSummary D) : EffectRow :=
  match summary.defaultHandlerEffects with
  | some effects => effects.direct
  | none => summary.escapingEffects

def refreshEscapingEffects (summary : EffectSummary D) : EffectSummary D :=
  match summary.defaultHandlerEffects with
  | some effects => { summary with escapingEffects := effects.escaping }
  | none => summary

/-- The causes, started from the escaping row when there are none. -/
def causes (summary : EffectSummary D) : DefaultHandlerEffects :=
  summary.defaultHandlerEffects.getD ⟨summary.escapingEffects, []⟩

/-- The escaping row and the causes kept for it. -/
def joinEscapingEffects (self other : EffectSummary D) : EffectSummary D × Bool :=
  if self.defaultHandlerEffects.isNone && other.defaultHandlerEffects.isNone then
    let (row, changed) := self.escapingEffects.unionAssign other.escapingEffects
    ({ self with escapingEffects := row }, changed)
  else
    let initialized := self.defaultHandlerEffects.isNone
    let (direct, changed) := self.causes.direct.unionAssign other.directEscapingEffects
    let (handlers, changed') := (handlerEntries D).recordAll self.causes.handlers
      ((other.defaultHandlerEffects.map DefaultHandlerEffects.handlers).getD [])
    ({ self with defaultHandlerEffects := some ⟨direct, handlers⟩ }.refreshEscapingEffects,
      initialized || changed || changed')

def joinExits (self other : Option (CallableExitSummary D)) :
    Option (CallableExitSummary D) × Bool :=
  match self, other with
  | some current, some other => let (joined, changed) := current.joinAssign other; (some joined, changed)
  | none, some other => (some other, true)
  | self, none => (self, false)

def joinBranch (self other : EffectSummary D) : EffectSummary D × Bool :=
  let (exits, c₁) := joinExits self.exits other.exits
  let (escaped, c₂) := self.joinEscapingEffects other
  let (handlerRequests, c₃) := self.handlerRequests.unionAssign other.handlerRequests
  let (requestedActions, c₄) := self.requestedActions.unionAssign other.requestedActions
  let (defaultActions, c₅) := self.defaultActions.unionAssign other.defaultActions
  let (handledActions, c₆) := self.handledActions.unionAssign other.handledActions
  let (actionTrace, c₇) := self.actionTrace.choiceAssign D.debug other.actionTrace
  let (residualChecks, c₈) := unionAssign self.residualChecks other.residualChecks
  let (traceSpecObligations, c₉) :=
    unionAssign self.traceSpecObligations other.traceSpecObligations
  let (requirements, c₁₀) := unionAssign self.requirements other.requirements
  let (determinism, c₁₁) := self.determinism.joinAssign other.determinism
  let (independentDeterminism, c₁₂) :=
    joinIndependentDeterminism self.independentDeterminism other.independentDeterminism
  let (support, c₁₃) := self.support.joinAssign other.support
  ({ handlerRequests, exits, requestedActions, defaultActions, handledActions, actionTrace
     residualChecks, traceSpecObligations, requirements, determinism, independentDeterminism
     support
     defaultHandlerEffects := escaped.defaultHandlerEffects
     escapingEffects := escaped.escapingEffects },
    c₁ || c₂ || c₃ || c₄ || c₅ || c₆ || c₇ || c₈ || c₉ || c₁₀ || c₁₁ || c₁₂ || c₁₃)

/-- The second body runs after the first: its trace follows, the exits stay those of the first. -/
def seqAssign (self other : EffectSummary D) : EffectSummary D × Bool :=
  let (escaped, c₁) := self.joinEscapingEffects other
  let (handlerRequests, c₂) := self.handlerRequests.unionAssign other.handlerRequests
  let (requestedActions, c₃) := self.requestedActions.unionAssign other.requestedActions
  let (defaultActions, c₄) := self.defaultActions.unionAssign other.defaultActions
  let (handledActions, c₅) := self.handledActions.unionAssign other.handledActions
  let (actionTrace, c₆) := self.actionTrace.seqAssign other.actionTrace
  let (residualChecks, c₇) := unionAssign self.residualChecks other.residualChecks
  let (traceSpecObligations, c₈) :=
    unionAssign self.traceSpecObligations other.traceSpecObligations
  let (requirements, c₉) := unionAssign self.requirements other.requirements
  let (determinism, c₁₀) := self.determinism.joinAssign other.determinism
  let (independentDeterminism, c₁₁) :=
    joinIndependentDeterminism self.independentDeterminism other.independentDeterminism
  let (support, c₁₂) := self.support.joinAssign other.support
  ({ handlerRequests, requestedActions, defaultActions, handledActions, actionTrace
     residualChecks, traceSpecObligations, requirements, determinism, independentDeterminism
     support
     exits := self.exits
     defaultHandlerEffects := escaped.defaultHandlerEffects
     escapingEffects := escaped.escapingEffects },
    c₁ || c₂ || c₃ || c₄ || c₅ || c₆ || c₇ || c₈ || c₉ || c₁₀ || c₁₁ || c₁₂)

/-! The other operations on what escapes and on its causes. -/

def recordEscapingEffectRow (summary : EffectSummary D) (row : EffectRow) : EffectSummary D :=
  match summary.defaultHandlerEffects with
  | some effects =>
    { summary with
      defaultHandlerEffects := some { effects with direct := (effects.direct.unionAssign row).1 }
      }.refreshEscapingEffects
  | none => { summary with escapingEffects := (summary.escapingEffects.unionAssign row).1 }

def recordDefaultHandlerEffects (summary : EffectSummary D) (action : Effect)
    (produced : EffectRow) : Except String (EffectSummary D) :=
  if !action.isAction then .error "default handler contribution must identify a checked action"
  else
    let handlers := (handlerEntries D).record summary.causes.handlers ⟨action, produced⟩
    .ok { summary with
      defaultHandlerEffects := some ⟨summary.causes.direct, handlers.1⟩ }.refreshEscapingEffects

def subtractHandledEffects (coverage : EffectCoverage) (handled : EffectRow)
    (summary : EffectSummary D) : EffectSummary D :=
  let summary := { summary with
    handlerRequests := summary.handlerRequests.subtractHandled coverage handled }
  match summary.defaultHandlerEffects with
  | some effects =>
    let direct := coverage.subtractHandled effects.direct handled
    let kept := effects.handlers.filter fun handler =>
      !(coverage.subtractHandled (.closed {handler.action}) handled).isEmpty
    let handlers := kept.map fun handler =>
      { handler with produced := coverage.subtractHandled handler.produced handled }
    if handlers.isEmpty then
      { summary with escapingEffects := direct, defaultHandlerEffects := none }
    else { summary with defaultHandlerEffects := some ⟨direct, handlers⟩ }.refreshEscapingEffects
  | none =>
    { summary with escapingEffects := coverage.subtractHandled summary.escapingEffects handled }

def removeEscapingEffect (summary : EffectSummary D) (effect : Effect) : EffectSummary D :=
  match summary.defaultHandlerEffects with
  | some effects =>
    let direct := effects.direct.removeEffect effect
    let handlers := effects.handlers.map fun handler =>
      { handler with produced := handler.produced.removeEffect effect }
    { summary with defaultHandlerEffects := some ⟨direct, handlers⟩ }.refreshEscapingEffects
  | none => { summary with escapingEffects := summary.escapingEffects.removeEffect effect }

/-- The causes' part of `merge_request_footprint_without_escaping_or_trace`. -/
def mergeRequestedCauses (self other : EffectSummary D) : EffectSummary D :=
  match (other.defaultHandlerEffects.map DefaultHandlerEffects.handlers).getD [] with
  | [] => self
  | handler :: rest =>
    let handlers := (handlerEntries D).recordAll self.causes.handlers
      ((handler :: rest).map fun handler => ⟨handler.action, .empty⟩)
    { self with defaultHandlerEffects := some ⟨self.causes.direct, handlers.1⟩ }

/-- The effects' part of `map_summary`; a mapper can fail. -/
def mapEscaping (effect : Effect → Option Effect) (row : EffectRow → Option EffectRow)
    (summary : EffectSummary D) : Option (EffectSummary D) := do
  let escapingEffects ← row summary.escapingEffects
  match summary.defaultHandlerEffects with
  | none => pure { summary with escapingEffects }
  | some effects =>
    let direct ← row effects.direct
    let handlers ← effects.handlers.mapM fun handler => do
      let action ← effect handler.action
      if action.isAction then (row handler.produced).map fun produced => ⟨action, produced⟩ else none
    pure { summary with defaultHandlerEffects := some ⟨direct, handlers⟩ }.refreshEscapingEffects

/-- The effects' part of the relocation of a frozen summary. -/
def relocateEscaping (effect : Effect → Effect) (summary : EffectSummary D) : EffectSummary D :=
  let row (r : EffectRow) : EffectRow := { r with effects := r.effects.image effect }
  { summary with
    escapingEffects := row summary.escapingEffects
    defaultHandlerEffects := summary.defaultHandlerEffects.map fun effects =>
      { direct := row effects.direct, handlers := effects.handlers.map fun handler =>
        { action := effect handler.action, produced := row handler.produced } } }

/-- `join_summary`: the default value is the bottom. -/
def joinAssign (self other : EffectSummary D) : EffectSummary D × Bool :=
  if self = default then (other, self != other)
  else if other = default then (self, false)
  else self.joinBranch other

def handlersLessEqual (left right : Option DefaultHandlerEffects) : Bool :=
  match left with
  | none => true
  | some effects => effects.handlers.all fun handler =>
    match right with
    | none => false
    | some other => other.handlers.any fun candidate =>
      candidate.action == handler.action && rowLessEqual handler.produced candidate.produced

def independentLessEqual : Option Determinism → Option Determinism → Bool
  | some left, some right => decide (left.rank ≤ right.rank)
  | _, none => true
  | none, some _ => false

def exitsLessEqual (left right : Option (CallableExitSummary D)) : Bool :=
  left.isNone || left == right

/-- Traces are ordered flatly, the empty one below. -/
def traceLessEqual (left right : ActionTraceDomain) : Bool := left == right || left == .empty

def lessEqual (self other : EffectSummary D) : Bool :=
  exitsLessEqual self.exits other.exits &&
    self.handlerRequests.lessEqual other.handlerRequests &&
    rowLessEqual self.escapingEffects other.escapingEffects &&
    rowLessEqual self.directEscapingEffects other.directEscapingEffects &&
    handlersLessEqual self.defaultHandlerEffects other.defaultHandlerEffects &&
    rowLessEqual self.requestedActions other.requestedActions &&
    rowLessEqual self.defaultActions other.defaultActions &&
    rowLessEqual self.handledActions other.handledActions &&
    traceLessEqual self.actionTrace other.actionTrace &&
    decide (self.residualChecks ⊆ other.residualChecks) &&
    decide (self.traceSpecObligations ⊆ other.traceSpecObligations) &&
    decide (self.requirements ⊆ other.requirements) &&
    decide (self.determinism.rank ≤ other.determinism.rank) &&
    independentLessEqual self.independentDeterminism other.independentDeterminism &&
    self.support.lessEqual other.support

end EffectSummary
end EtasFrontend.Effects
