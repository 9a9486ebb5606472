import EtasFrontend.Analysis.CallGraph
import EtasFrontend.Analysis.Interpreter

/-! The solver of summaries: it collects the calls of all units, and then transfers the units of
one component after the other until their summaries no longer change. -/
namespace EtasFrontend.Analysis
open Lib

inductive HirAnalysisBody where
  | block (block : HirBlockId)
  | expr (expr : HirExprId)
  | handlerArm (arm : HirHandlerArmId)
  | external
  | missing

def HirAnalysisBody.isTraversable : HirAnalysisBody → Bool
  | .block _ => true
  | .expr _ => true
  | .handlerArm _ => true
  | .external => false
  | .missing => false

inductive AnalysisPhase where
  | discoverCalls | solveSummaries
  deriving DecidableEq

structure UnitContext (U : Type) where
  unit : U
  phase : AnalysisPhase

inductive CallTarget (U : Type) where
  | direct (unit : U)
  | dynamic
  | external
  | incomplete

inductive ResolvedCallee (U : Type) where
  | direct (unit : U)
  | dynamic
  | external

structure CallSite (U : Type) where
  call : HirExprId
  calleeExpr : HirExprId
  callee : Option (ResolvedCallee U)

inductive InterproceduralDiagnostic (U : Type) where
  | invalidCondensationGraph
  | missingBody (unit : U)
  | missingSummary (call : HirExprId) (callee : U)
  | iterationLimitReached (component : List U)
  deriving DecidableEq

def pushUnique {α : Type} [DecidableEq α] (items : List α) (item : α) : List α :=
  if items.contains item then items else items ++ [item]

/-- An analysis, as functions: what a hook returns depends on its arguments only. -/
structure InterproceduralSemantics (U D S : Type) where
  hooks : HirAnalysisSemantics Id D
  bodyOf : U → HirAnalysisBody
  beginUnit : UnitContext U → D
  endUnit : UnitContext U → Control D → S
  stabilizeSummary : UnitContext U → S → Option S → S
  externalSummary : UnitContext U → S
  missingSummary : UnitContext U → S
  unitDependencies : U → List U
  callTarget : UnitContext U → HirExprId → HirExprId → D → CallTarget U
  methodCallTarget : UnitContext U → HirExprId → D → Option U
  specMethodCallTarget : UnitContext U → HirExprId → D → Option U
  handlerArmDependency : UnitContext U → HirHandlerArmId → Option U
  anonymousFlowDependency : UnitContext U → HirExprId → Option U
  expressionDependencies : UnitContext U → HirExprId → List U
  directCall : UnitContext U → CallSite U → U → S → D → D
  dynamicCall : UnitContext U → CallSite U → D → D
  externalCall : UnitContext U → CallSite U → D → D
  incompleteCall : UnitContext U → CallSite U → D → D

/-! The store of summaries. -/

abbrev SummaryStore (U S : Type) := Map U S

namespace SummaryStore
variable {U S : Type} [LinearOrder U] [AbstractDomain S]

def ensureBottom (summaries : SummaryStore U S) (unit : U) : SummaryStore U S :=
  summaries.orInsert unit AbstractDomain.bottom

/-- The store, and whether the summary of the unit changed. -/
def joinSummary (summaries : SummaryStore U S) (unit : U) (summary : S) : SummaryStore U S × Bool :=
  match summaries.get unit with
  | some current =>
    (summaries.insert unit (current ⊔ summary), AbstractDomain.joinChanges current summary)
  | none => (summaries.insert unit summary, true)

end SummaryStore

/-- The pass that collects calls changes the graph. -/
abbrev CollectM (U : Type) [LinearOrder U] := StateM (CallGraph U)

/-- The pass over a unit reads the summaries and adds diagnostics. -/
abbrev SummaryM (U S : Type) :=
  ReaderT (SummaryStore U S) (StateM (List (InterproceduralDiagnostic U)))

/-- Hooks that are functions, in any monad. -/
def HirAnalysisSemantics.lift {m : Type → Type} [Monad m] {D : Type}
    (hooks : HirAnalysisSemantics Id D) : HirAnalysisSemantics m D where
  incompleteFacts state := pure (hooks.incompleteFacts state)
  loopFixpointIncomplete body state := pure (hooks.loopFixpointIncomplete body state)
  boundedForIterations stmt := pure (hooks.boundedForIterations stmt)
  afterBoundedFor stmt state := pure (hooks.afterBoundedFor stmt state)
  boundedForBreak stmt state := pure (hooks.boundedForBreak stmt state)
  unhandledSemantics hook state := pure (hooks.unhandledSemantics hook state)
  beforeStmt stmt state := pure (hooks.beforeStmt stmt state)
  afterStmt stmt state := pure (hooks.afterStmt stmt state)
  beforeExpr expr state := pure (hooks.beforeExpr expr state)
  afterExprControl expr control := pure (hooks.afterExprControl expr control)
  beginMatchArm expr scrutinee pat state := pure (hooks.beginMatchArm expr scrutinee pat state)
  beginForBody stmt iter pat state := pure (hooks.beginForBody stmt iter pat state)
  returnValue stmt value state := pure (hooks.returnValue stmt value state)
  perform expr state := pure (hooks.perform expr state)
  directCall call callee state := pure (hooks.directCall call callee state)
  methodCall expr state := pure (hooks.methodCall expr state)
  specMethodCall expr state := pure (hooks.specMethodCall expr state)
  stageCompose expr state := pure (hooks.stageCompose expr state)
  stageTargetsAreCaptured expr state := pure (hooks.stageTargetsAreCaptured expr state)
  pipeline expr state := pure (hooks.pipeline expr state)
  beginTryOperand expr state := pure (hooks.beginTryOperand expr state)
  beginHandleBody expr state := pure (hooks.beginHandleBody expr state)
  tryExprControl expr entry control := pure (hooks.tryExprControl expr entry control)
  handleExprControl expr entry parts := pure (hooks.handleExprControl expr entry parts)
  lambdaBoundary expr state := pure (hooks.lambdaBoundary expr state)
  handlerBoundary expr state := pure (hooks.handlerBoundary expr state)

variable {U D S : Type} [LinearOrder U] [AbstractDomain D] [AbstractDomain S]

namespace InterproceduralSemantics
variable (self : InterproceduralSemantics U D S) (unit : U)

/-! The adapter that collects calls. -/

def addCalls (callees : List U) : CollectM U Unit :=
  modify fun graph => callees.foldl (fun graph callee => graph.addCall unit callee) graph

def CallTarget.units : CallTarget U → List U
  | .direct callee => [callee]
  | .dynamic => []
  | .external => []
  | .incomplete => []

/-- The arms of a handler expression. -/
def handlerExprArms : HirExpr → List HirHandlerArmId
  | .handler handlers => handlers
  | _ => []

/-- `CallGraphCollectionAdapter`. Its states are as they were. -/
def collectionAdapter (program : HirProgram) : HirAnalysisSemantics (CollectM U) D :=
  { HirAnalysisSemantics.idle with
    afterExprControl := fun expr control => control.mapStates fun state => do
      addCalls unit (self.expressionDependencies ⟨unit, .discoverCalls⟩ expr)
      pure state
    directCall := fun call callee state => do
      addCalls unit (CallTarget.units (self.callTarget ⟨unit, .discoverCalls⟩ call callee state))
      pure (.handled state)
    methodCall := fun expr state => do
      addCalls unit (self.methodCallTarget ⟨unit, .discoverCalls⟩ expr state).toList
      pure (.handled state)
    specMethodCall := fun expr state => do
      addCalls unit (self.specMethodCallTarget ⟨unit, .discoverCalls⟩ expr state).toList
      pure (.handled state)
    tryExprControl := fun _ _ control => control.withNormalProcessed fun state =>
      pure (Control.normal state)
    lambdaBoundary := fun expr state => do
      addCalls unit (self.anonymousFlowDependency ⟨unit, .discoverCalls⟩ expr).toList
      pure (.handled state)
    handlerBoundary := fun expr state => do
      addCalls unit ((handlerExprArms (program.exprs expr)).filterMap
        (self.handlerArmDependency ⟨unit, .discoverCalls⟩))
      pure (.handled state) }

/-! The adapter that applies summaries. -/

/-- A call of a known unit, whose summary may be missing. -/
def callWith (site : CallSite U) (call : HirExprId) (callee : U) (state : D) :
    Option S → SummaryM U S (AnalysisStep D)
  | some summary =>
    pure (.handled (self.directCall ⟨unit, .solveSummaries⟩ site callee summary state))
  | none => do
    modify fun diagnostics => pushUnique diagnostics (.missingSummary call callee)
    pure (.handled (self.incompleteCall ⟨unit, .solveSummaries⟩ site state))

def applySummary (site : CallSite U) (call : HirExprId) (callee : U) (state : D) :
    SummaryM U S (AnalysisStep D) := do
  let summaries ← read
  self.callWith unit site call callee state (summaries.get callee)

/-- `SummaryApplicationAdapter`. -/
def summaryAdapter : HirAnalysisSemantics (SummaryM U S) D :=
  { self.hooks.lift with
    directCall := fun call callee state =>
      match self.callTarget ⟨unit, .solveSummaries⟩ call callee state with
      | .direct target =>
        self.applySummary unit ⟨call, callee, some (.direct target)⟩ call target state
      | .dynamic => pure (.handled
        (self.dynamicCall ⟨unit, .solveSummaries⟩ ⟨call, callee, some .dynamic⟩ state))
      | .external => pure (.handled
        (self.externalCall ⟨unit, .solveSummaries⟩ ⟨call, callee, some .external⟩ state))
      | .incomplete => pure (.handled
        (self.incompleteCall ⟨unit, .solveSummaries⟩ ⟨call, callee, none⟩ state))
    methodCall := fun expr state =>
      match self.methodCallTarget ⟨unit, .solveSummaries⟩ expr state with
      | some target => self.applySummary unit ⟨expr, expr, some (.direct target)⟩ expr target state
      | none => pure (self.hooks.methodCall expr state)
    specMethodCall := fun expr state =>
      match self.specMethodCallTarget ⟨unit, .solveSummaries⟩ expr state with
      | some target => self.applySummary unit ⟨expr, expr, some (.direct target)⟩ expr target state
      | none => pure (self.hooks.specMethodCall expr state) }

end InterproceduralSemantics

/-- The entry of a body; an arm of a handler is its block. -/
def HirAnalysisBody.node (program : HirProgram) : HirAnalysisBody → Option HirNode
  | .block b => some (.block b)
  | .expr e => some (.expr e)
  | .handlerArm arm => some (.block (program.handlerArms arm).body)
  | .external => none
  | .missing => none

def traverseBody {m : Type → Type} [Monad m] (interpreter : HirAbstractInterpreter m D) (fuel : ℕ)
    (body : HirAnalysisBody) (state : D) : Traversal m (Control D) :=
  match body.node interpreter.program with
  | some node => interpreter.control fuel node state
  | none => pure (Control.normal state)

/-- The graph between the components, by their positions. -/
structure ComponentGraph where
  nodes : List ℕ
  edges : UnitSets ℕ

def ComponentGraph.successors (graph : ComponentGraph) (node : ℕ) : List ℕ := graph.edges.of node

/-- The summaries and diagnostics that a worklist changes. -/
abbrev SolverState (U S : Type) := SummaryStore U S × List (InterproceduralDiagnostic U)

/-- What the solver takes from `etas_utils`. -/
structure SolverUtils (U D S : Type) [LinearOrder U] where
  maxIterations : ℕ
  collectEngine : FixpointEngine (CollectM U) D
  summaryEngine : FixpointEngine (SummaryM U S) D
  stronglyConnectedComponents : CallGraph U → List (List U)
  topologicalSort : ComponentGraph → Option (List ℕ)
  trySolveWorklist : SolverState U S → List U → (U → SolverState U S → SolverState U S × Bool) →
    (U → SolverState U S → List U) → SolverState U S × ConvergenceStatus

structure ComponentConvergence (U : Type) where
  units : List U
  status : ConvergenceStatus

structure SummarySolverResult (U S : Type) [LinearOrder U] where
  summaries : SummaryStore U S
  callGraph : CallGraph U
  convergence : List (ComponentConvergence U)
  diagnostics : List (InterproceduralDiagnostic U)

structure SummarySolver (U D S : Type) [LinearOrder U] where
  program : HirProgram
  semantics : InterproceduralSemantics U D S
  utils : SolverUtils U D S

namespace SummarySolver
variable (self : SummarySolver U D S)

def collector (unit : U) : HirAbstractInterpreter (CollectM U) D :=
  ⟨self.program, self.semantics.collectionAdapter unit self.program, self.utils.collectEngine⟩

def transferrer (unit : U) : HirAbstractInterpreter (SummaryM U S) D :=
  ⟨self.program, self.semantics.summaryAdapter unit, self.utils.summaryEngine⟩

def collectUnit (fuel : ℕ) (graph : CallGraph U) (unit : U) : CallGraph U :=
  let graph := (self.semantics.unitDependencies unit).foldl
    (fun graph dependency => graph.addCall unit dependency) graph
  if (self.semantics.bodyOf unit).isTraversable then
    ((traverseBody (self.collector unit) fuel (self.semantics.bodyOf unit)
      AbstractDomain.bottom).run self.utils.maxIterations graph).2
  else graph

def buildCallGraph (fuel : ℕ) (units : List U) : CallGraph U :=
  units.foldl (self.collectUnit fuel) (units.foldl CallGraph.addUnit CallGraph.new)

/-- The summary of a unit before it is stabilized. -/
def bodySummary (fuel : ℕ) (unit : U) (state : SolverState U S) :
    S × List (InterproceduralDiagnostic U) :=
  match self.semantics.bodyOf unit with
  | .external => (self.semantics.externalSummary ⟨unit, .solveSummaries⟩, state.2)
  | .missing =>
    (self.semantics.missingSummary ⟨unit, .solveSummaries⟩, pushUnique state.2 (.missingBody unit))
  | body =>
    let entry := self.semantics.beginUnit ⟨unit, .solveSummaries⟩
    let ((exit, _), diagnostics) := (traverseBody (self.transferrer unit) fuel body entry).run
      self.utils.maxIterations state.1 state.2
    (self.semantics.endUnit ⟨unit, .solveSummaries⟩ exit, diagnostics)

/-- What the transfer of a unit joins with its summary. -/
def unitSummary (fuel : ℕ) (unit : U) (state : SolverState U S) : S :=
  self.semantics.stabilizeSummary ⟨unit, .solveSummaries⟩ (self.bodySummary fuel unit state).1
    (state.1.get unit)

def transferUnit (fuel : ℕ) (unit : U) (state : SolverState U S) : SolverState U S × Bool :=
  let (summaries, changed) := SummaryStore.joinSummary state.1 unit (self.unitSummary fuel unit state)
  ((summaries, (self.bodySummary fuel unit state).2), changed)

/-! The order of the components. -/

def componentByNode (components : List (List U)) : Map U ℕ :=
  Map.ofList (components.zipIdx.flatMap fun entry => entry.1.map fun node => (node, entry.2))

/-- Every unit of the graph has a component. -/
def componentOf (components : List (List U)) (node : U) : ℕ :=
  ((componentByNode components).get node).getD 0

def componentEdges (graph : CallGraph U) (components : List (List U)) (caller : U) : List (ℕ × ℕ) :=
  ((graph.dependencies caller).map fun callee =>
    (componentOf components caller, componentOf components callee)).filter
      fun edge => edge.1 ≠ edge.2

def componentGraph (graph : CallGraph U) (components : List (List U)) : ComponentGraph where
  nodes := List.range components.length
  edges := (graph.units.flatMap (componentEdges graph components)).foldl
    (fun edges edge => UnitSets.add edges edge.1 edge.2) ∅

def sortedComponents (graph : CallGraph U) : List (List U) :=
  (self.utils.stronglyConnectedComponents graph).map (List.insertionSort (· ≤ ·))

/-- A component comes after those that it calls. -/
def orderedComponents (graph : CallGraph U) : Option (List (List U)) :=
  (self.utils.topologicalSort (componentGraph graph (self.sortedComponents graph))).map fun order =>
    order.reverse.map fun index => (self.sortedComponents graph).getD index []

def componentDependents (graph : CallGraph U) (component : List U) (unit : U) : List U :=
  (graph.dependents unit).filter component.contains

def solveComponent (fuel : ℕ) (graph : CallGraph U)
    (progress : SolverState U S × List (ComponentConvergence U)) (component : List U) :
    SolverState U S × List (ComponentConvergence U) :=
  let (state, status) := self.utils.trySolveWorklist progress.1 component (self.transferUnit fuel)
    fun unit _ => componentDependents graph component unit
  let diagnostics := if status = .iterationLimitReached then
    pushUnique state.2 (.iterationLimitReached component) else state.2
  ((state.1, diagnostics), progress.2 ++ [⟨component, status⟩])

def solve (fuel : ℕ) (units : List U) : SummarySolverResult U S :=
  let units := (units.insertionSort (· ≤ ·)).dedup
  let graph := self.buildCallGraph fuel units
  let summaries := units.foldl SummaryStore.ensureBottom ∅
  match self.orderedComponents graph with
  | none => ⟨summaries, graph, [], [.invalidCondensationGraph]⟩
  | some components =>
    let ((summaries, diagnostics), convergence) :=
      components.foldl (self.solveComponent fuel graph) ((summaries, []), [])
    ⟨summaries, graph, convergence, diagnostics⟩

end SummarySolver
end EtasFrontend.Analysis
