import EtasFrontend.Analysis.Control
import EtasFrontend.Analysis.Hir

/-! The abstract interpreter of HIR bodies, as it runs: with a stack of tasks for structural
expressions, and loops for chains of `if` and of method calls. -/
namespace EtasFrontend.Analysis

inductive AnalysisStep (D : Type) where
  | handled (state : D)
  | unhandled (state : D) (hook : String)

structure HandleParts (D : Type) where
  body : Control D
  handlerExpr : HirExprId
  handler : Control D

/-- The hooks of an analysis, in a monad for what it keeps beside the states. What the source also
passes of a node (its span, action and arguments) can be looked up by the id. -/
structure HirAnalysisSemantics (m : Type → Type) (D : Type) where
  incompleteFacts : D → m D
  loopFixpointIncomplete : HirBlockId → D → m D
  boundedForIterations : HirStmtId → m (Option ℕ)
  afterBoundedFor : HirStmtId → D → m D
  boundedForBreak : HirStmtId → D → m D
  unhandledSemantics : String → D → m D
  beforeStmt : HirStmtId → D → m D
  afterStmt : HirStmtId → D → m D
  beforeExpr : HirExprId → D → m D
  afterExprControl : HirExprId → Control D → m (Control D)
  beginMatchArm : HirExprId → HirExprId → HirPatId → D → m D
  beginForBody : HirStmtId → HirExprId → HirPatId → D → m D
  returnValue : HirStmtId → Option HirExprId → D → m D
  perform : HirExprId → D → m (AnalysisStep D)
  directCall : HirExprId → HirExprId → D → m (AnalysisStep D)
  methodCall : HirExprId → D → m (AnalysisStep D)
  specMethodCall : HirExprId → D → m (AnalysisStep D)
  stageCompose : HirExprId → D → m (AnalysisStep D)
  stageTargetsAreCaptured : HirExprId → D → m Bool
  pipeline : HirExprId → D → m (AnalysisStep D)
  beginTryOperand : HirExprId → D → m D
  beginHandleBody : HirExprId → D → m D
  tryExprControl : HirExprId → D → Control D → m (Control D)
  handleExprControl : HirExprId → D → HandleParts D → m (Control D)
  lambdaBoundary : HirExprId → D → m (AnalysisStep D)
  handlerBoundary : HirExprId → D → m (AnalysisStep D)

inductive ConvergenceStatus where
  | converged | iterationLimitReached
  deriving DecidableEq

/-- The state of a traversal is `loop_iterations_remaining`. -/
abbrev Traversal (m : Type → Type) := StateT ℕ m

/-- `etas_utils::FixpointEngine`. A step returns the new state and whether it changed. -/
structure FixpointEngine (m : Type → Type) (D : Type) where
  trySolve : D → (D → Traversal m (D × Bool)) → Traversal m (D × ConvergenceStatus)

/-- The loop of an engine with a limit on its iterations. -/
def FixpointEngine.solveLoop {m : Type → Type} [Monad m] {D : Type}
    (step : D → Traversal m (D × Bool)) : ℕ → D → Traversal m (D × ConvergenceStatus)
  | 0, state => pure (state, .iterationLimitReached)
  | limit + 1, state => do
    let (state, changed) ← step state
    if changed then solveLoop step limit state else pure (state, .converged)

def FixpointEngine.withLimit {m : Type → Type} [Monad m] {D : Type} (limit : ℕ) :
    FixpointEngine m D :=
  ⟨fun initial step => solveLoop step limit initial⟩

/-- Hooks that add nothing. -/
def HirAnalysisSemantics.idle {m : Type → Type} [Monad m] {D : Type} [AbstractDomain D] :
    HirAnalysisSemantics m D where
  incompleteFacts := pure
  loopFixpointIncomplete _ := pure
  boundedForIterations _ := pure none
  afterBoundedFor _ := pure
  boundedForBreak _ := pure
  unhandledSemantics _ := pure
  beforeStmt _ := pure
  afterStmt _ := pure
  beforeExpr _ := pure
  afterExprControl _ := pure
  beginMatchArm _ _ _ := pure
  beginForBody _ _ _ := pure
  returnValue _ _ := pure
  perform _ state := pure (.handled state)
  directCall _ _ state := pure (.handled state)
  methodCall _ state := pure (.handled state)
  specMethodCall _ state := pure (.unhandled state "spec_method_call")
  stageCompose _ state := pure (.handled state)
  stageTargetsAreCaptured _ _ := pure false
  pipeline _ state := pure (.handled state)
  beginTryOperand _ := pure
  beginHandleBody _ := pure
  tryExprControl _ _ := pure
  handleExprControl _ _ parts := pure (parts.body.join parts.handler)
  lambdaBoundary _ state := pure (.handled state)
  handlerBoundary _ state := pure (.handled state)

structure HirAbstractInterpreter (m : Type → Type) (D : Type) where
  program : HirProgram
  semantics : HirAnalysisSemantics m D
  engine : FixpointEngine m D

variable {m : Type → Type} [Monad m] {D : Type} [AbstractDomain D]

def joinState (state : D) : Option D → D
  | none => state
  | some other => state ⊔ other

def backEdge (body : Control D) : D :=
  joinState (joinState AbstractDomain.bottom body.normalState) body.continueState

namespace Control

/-- `join_normal`, of a state that may be missing. -/
def joinNormal (result : Control D) (state : Option D) : Control D :=
  { result with normalState := joinSlot result.normalState state }

/-- The exits of a body that also leave its loop. -/
def joinExits (result body : Control D) : Control D :=
  { result with
    returnState := joinSlot result.returnState body.returnState
    resumeState := joinSlot result.resumeState body.resumeState
    finishState := joinSlot result.finishState body.finishState
    errorState := joinSlot result.errorState body.errorState }

end Control

namespace HirAbstractInterpreter
variable (self : HirAbstractInterpreter m D)

def fixedState (body : HirBlockId) : D × ConvergenceStatus → Traversal m D
  | (value, .converged) => pure value
  | (value, .iterationLimitReached) => self.semantics.loopFixpointIncomplete body value

def loopStep (block : D → Traversal m (Control D)) (state : D) : Traversal m (D × Bool) := do
  let bodyControl ← block state
  pure (state ⊔ backEdge bodyControl, AbstractDomain.joinChanges state (backEdge bodyControl))

def loopBlockControl (block : D → Traversal m (Control D)) (body : HirBlockId) (initial : D) :
    Traversal m (Control D) := do
  let solved ← self.engine.trySolve initial (loopStep block)
  let fixed ← self.fixedState body solved
  let bodyControl ← block fixed
  pure (((Control.normal fixed).joinNormal bodyControl.breakState).joinExits bodyControl)

def whileStep (condition block : D → Traversal m (Control D)) (state : D) :
    Traversal m (D × Bool) := do
  let conditionControl ← condition state
  match conditionControl.normalState with
  | none => pure (state, false)
  | some conditionState => do
    let bodyControl ← block conditionState
    pure (state ⊔ backEdge bodyControl, AbstractDomain.joinChanges state (backEdge bodyControl))

def whileLoopControl (condition block : D → Traversal m (Control D)) (body : HirBlockId)
    (initial : D) : Traversal m (Control D) := do
  let first ← condition initial
  let solved ← self.engine.trySolve initial (whileStep condition block)
  let fixed ← self.fixedState body solved
  let last ← condition fixed
  let result := first.join last
  match result.normalState with
  | none => pure result
  | some conditionState => do
    let bodyControl ← block conditionState
    pure ((result.joinNormal bodyControl.breakState).joinExits bodyControl)

/-- The loop of `bounded_for_control`; the flag says that no iteration was left to the engine. -/
def boundedForLoop (block : D → Traversal m (Control D)) (stmt : HirStmtId) (body : HirBlockId) :
    ℕ → Control D → Option D → Traversal m (Control D × Bool)
  | 0, result, _ => pure (result, true)
  | _ + 1, result, none => pure (result, true)
  | iterations + 1, result, some state => do
    let remaining ← get
    if remaining = 0 then
      let rest ← self.loopBlockControl block body state
      pure (result.join rest, false)
    else
      set (remaining - 1)
      let iteration ← block state
      let broken ← iteration.breakState.mapM fun state => self.semantics.boundedForBreak stmt state
      let active := joinSlot iteration.normalState iteration.continueState
      boundedForLoop block stmt body iterations
        (((result.joinNormal broken).joinExits iteration).joinNormal active) active

def boundedForControl (block : D → Traversal m (Control D)) (stmt : HirStmtId) (body : HirBlockId)
    (initial : D) (maxIterations : ℕ) : Traversal m (Control D × Bool) :=
  self.boundedForLoop block stmt body maxIterations (Control.normal initial) (some initial)

/-! Statements and blocks. The calls that go down the tree are a parameter. -/

variable (eval : HirNode → D → Traversal m (Control D))

def requireHandled : AnalysisStep D → m D
  | .handled state => pure state
  | .unhandled state hook => self.semantics.unhandledSemantics hook state

def applyNormalStep (control : Control D) (f : D → m (AnalysisStep D)) : Traversal m (Control D) :=
  control.withNormalProcessed fun state => do
    let step ← f state
    let state ← self.requireHandled step
    pure (Control.normal state)

def exprsControl (exprs : List HirExprId) (control : Control D) : Traversal m (Control D) :=
  exprs.foldlM (fun control expr => control.withNormalProcessed (eval (.expr expr))) control

def argsControl (args : List HirArg) (control : Control D) : Traversal m (Control D) :=
  args.foldlM (fun control arg => control.withNormalProcessed (eval (.expr arg.expr))) control

/-- The operand of `return` and `resume`. -/
def valueControl (value : Option HirExprId) (state : D) : Traversal m (Control D) :=
  match value with
  | some value => eval (.expr value) state
  | none => pure (Control.normal state)

def forControl (stmt : HirStmtId) (pat : HirPatId) (iter : HirExprId) (limits : List HirExprId)
    (body : HirBlockId) (state : D) : Traversal m (Control D × Bool) := do
  let control ← exprsControl eval limits (Control.normal state)
  let control ← control.withNormalProcessed (eval (.expr iter))
  let control ← control.withNormalProcessed fun state => do
    let state ← self.semantics.beginForBody stmt iter pat state
    pure (Control.normal state)
  let bounded ← self.semantics.boundedForIterations stmt
  match bounded, control.normalState with
  | _, none => pure (control, false)
  | some bound, some state => do
    let (result, complete) ← self.boundedForControl (eval (.block body)) stmt body state bound
    pure (control.withoutNormal.join result, complete)
  | none, some state => do
    let result ← self.loopBlockControl (eval (.block body)) body state
    pure (control.withoutNormal.join result, false)

/-- The control of a statement before its completion hook, and whether it is a `for` whose
iterations were all walked. -/
def stmtNext (stmt : HirStmtId) (state : D) : Traversal m (Control D × Bool) := do
  match self.program.stmts stmt with
  | .let value => return (← eval (.expr value) state, false)
  | .var value => return (← eval (.expr value) state, false)
  | .assign target value => do
    let control ← eval (.expr target) state
    return (← control.withNormalProcessed (eval (.expr value)), false)
  | .if expr => return (← eval (.expr expr) state, false)
  | .match expr => return (← eval (.expr expr) state, false)
  | .expr expr => return (← eval (.expr expr) state, false)
  | .for pat iter limits body => self.forControl eval stmt pat iter limits body state
  | .while cond limits body => do
    let control ← exprsControl eval limits (Control.normal state)
    let loop := self.whileLoopControl (eval (.expr cond)) (eval (.block body)) body
    return (← control.withNormalProcessed loop, false)
  | .retry limits body => do
    let control ← exprsControl eval limits (Control.normal state)
    return (← control.withNormalProcessed (self.loopBlockControl (eval (.block body)) body), false)
  | .return value => do
    let control ← valueControl eval value state
    return (← control.withNormalProcessed fun state => do
      let state ← self.semantics.returnValue stmt value state
      pure (Control.returning state), false)
  | .resume value => do
    let control ← valueControl eval value state
    return (← control.withNormalProcessed fun state => pure (Control.resuming state), false)
  | .finish value => do
    let control ← eval (.expr value) state
    return (← control.withNormalProcessed fun state => pure (Control.finishing state), false)
  | .break => return (Control.breaking state, false)
  | .continue => return (Control.continuing state, false)
  | .error => return (Control.error state, false)

def stmtControl (stmt : HirStmtId) (state : D) : Traversal m (Control D) := do
  let state ← self.semantics.beforeStmt stmt state
  let (next, boundedForComplete) ← self.stmtNext eval stmt state
  next.mapStates fun state =>
    if boundedForComplete then self.semantics.afterBoundedFor stmt state
    else self.semantics.afterStmt stmt state

/-- The loop over the statements of a block stops where control does not go on. -/
def stmtsControl : List HirStmtId → Control D → Traversal m (Control D)
  | [], control => pure control
  | stmt :: stmts, control => do
    let control ← control.withNormalProcessed (eval (.stmt stmt))
    if control.normalState.isNone then pure control else stmtsControl stmts control

def blockControl (block : HirBlockId) (state : D) : Traversal m (Control D) := do
  let control ← stmtsControl eval (self.program.blocks block).stmts (Control.normal state)
  match (self.program.blocks block).finalExpr with
  | some expr => control.withNormalProcessed (eval (.expr expr))
  | none => pure control

def recordFieldsControl (fields : List HirFieldInit) (control : Control D) :
    Traversal m (Control D) :=
  fields.foldlM (fun control field =>
    match field with
    | .shorthand _ => pure control
    | .named _ value => control.withNormalProcessed (eval (.expr value))) control

def mapEntriesControl (entries : List HirMapEntry) (control : Control D) :
    Traversal m (Control D) :=
  entries.foldlM (fun control entry => do
    let control ← control.withNormalProcessed (eval (.expr entry.key))
    control.withNormalProcessed (eval (.expr entry.value))) control

def stagesControl (stages : List HirStage) (control : Control D) : Traversal m (Control D) :=
  stages.foldlM (fun control stage => do
    let control ← control.withNormalProcessed (eval (.expr stage.expr))
    exprsControl eval stage.limits control) control

def armsControl (expr scrutinee : HirExprId) (arms : List HirMatchArm) (base : D) :
    Traversal m (Control D) :=
  arms.foldlM (fun joined arm => do
    let state ← self.semantics.beginMatchArm expr scrutinee arm.pat base
    let armControl ← eval arm.body.node state
    pure (joined.join armControl)) Control.bottom

/-- The evaluators of the three kinds of expression that are walked without a call for each level. -/
structure ChainEvaluators (m : Type → Type) (D : Type) where
  structural : HirExprId → D → Traversal m (Control D)
  ifChain : HirExprId → D → Traversal m (Control D)
  methodCallChain : HirExprId → D → Traversal m (Control D)

/-- The control of an expression between its hooks. -/
def exprNext (chains : ChainEvaluators m D) (expr : HirExprId) (state : D) :
    Traversal m (Control D) := do
  match self.program.exprs expr with
  | .infer args => argsControl eval args (Control.normal state)
  | .perform args => do
    let control ← argsControl eval args (Control.normal state)
    self.applyNormalStep control (self.semantics.perform expr)
  | .if _ _ _ => chains.ifChain expr state
  | .match scrutinee arms => do
    let control ← eval (.expr scrutinee) state
    control.withNormalProcessed (self.armsControl eval expr scrutinee arms)
  | .block block => eval (.block block) state
  | .call callee args => do
    let control ← eval (.expr callee) state
    let control ← argsControl eval args control
    self.applyNormalStep control (self.semantics.directCall expr callee)
  | .methodCall _ _ => chains.methodCallChain expr state
  | .specMethodCall receiver args => do
    let control ← eval (.expr receiver) state
    let control ← argsControl eval args control
    self.applyNormalStep control (self.semantics.specMethodCall expr)
  | .record fields => recordFieldsControl eval fields (Control.normal state)
  | .tuple elems => exprsControl eval elems (Control.normal state)
  | .array elems => exprsControl eval elems (Control.normal state)
  | .list elems => exprsControl eval elems (Control.normal state)
  | .set elems => exprsControl eval elems (Control.normal state)
  | .map entries => mapEntriesControl eval entries (Control.normal state)
  | .listCons _ _ => chains.structural expr state
  | .range _ _ => chains.structural expr state
  | .binary _ _ => chains.structural expr state
  | .field _ => chains.structural expr state
  | .unary _ => chains.structural expr state
  | .index _ _ => chains.structural expr state
  | .slice _ _ _ => chains.structural expr state
  | .try base => do
    let operand ← self.semantics.beginTryOperand expr state
    let control ← eval (.expr base) operand
    self.semantics.tryExprControl expr state control
  | .handle body handler => do
    let bodyState ← self.semantics.beginHandleBody expr state
    let bodyControl ← eval (.expr body) bodyState
    let handlerControl ← eval (.expr handler) state
    self.semantics.handleExprControl expr state ⟨bodyControl, handler, handlerControl⟩
  | .stageCompose stages => do
    let captured ← self.semantics.stageTargetsAreCaptured expr state
    let control ← if captured then pure (Control.normal state)
      else stagesControl eval stages (Control.normal state)
    self.applyNormalStep control (self.semantics.stageCompose expr)
  | .pipeline input stages => do
    let control ← eval (.expr input) state
    let control ← stagesControl eval stages control
    self.applyNormalStep control (self.semantics.pipeline expr)
  | .lambda => do
    let step ← self.semantics.lambdaBoundary expr state
    let state ← self.requireHandled step
    pure (Control.normal state)
  | .handler _ => do
    let step ← self.semantics.handlerBoundary expr state
    let state ← self.requireHandled step
    pure (Control.normal state)
  | .literal => pure (Control.normal state)
  | .path => pure (Control.normal state)
  | .reflect => pure (Control.normal state)
  | .emptyRecordOrMap => pure (Control.normal state)
  | .emptySequence => pure (Control.normal state)
  | .error => pure (Control.normal state)

def exprControl (chains : ChainEvaluators m D) (expr : HirExprId) (state : D) :
    Traversal m (Control D) := do
  let state ← self.semantics.beforeExpr expr state
  let next ← self.exprNext eval chains expr state
  self.semantics.afterExprControl expr next

/-! The evaluators as the interpreter has them. The bound of a loop is on its turns. -/

inductive Task (D : Type) where
  | enter (expr : HirExprId)
  | complete (expr : HirExprId)
  | merge (inherited : Control D)

/-- A state to merge is only kept if there is one. -/
def mergeTask (inherited : Control D) : List (Task D) :=
  if inherited.isEmpty then [] else [.merge inherited]

def structuralLoop : ℕ → List (Task D) → Control D → Traversal m (Control D)
  | _, [], control => pure control
  | 0, _ :: _, _ => pure Control.bottom
  | turns + 1, .enter expr :: tasks, control =>
    match control.normalState with
    | none => structuralLoop turns tasks control
    | some state =>
      match (self.program.exprs expr).operands with
      | some operands => do
        let state ← self.semantics.beforeExpr expr state
        structuralLoop turns (operands.map .enter ++
          .complete expr :: mergeTask control.withoutNormal ++ tasks) (Control.normal state)
      | none => do
        let next ← eval (.expr expr) state
        structuralLoop turns tasks (next.join control.withoutNormal)
  | turns + 1, .complete expr :: tasks, control => do
    let next ← self.semantics.afterExprControl expr control
    structuralLoop turns tasks next
  | turns + 1, .merge inherited :: tasks, control =>
    structuralLoop turns tasks (control.join inherited)

def structuralExprControl (turns : ℕ) (root : HirExprId) (state : D) : Traversal m (Control D) :=
  match (self.program.exprs root).operands with
  | none => (Control.normal state).mapStates fun state => self.semantics.incompleteFacts state
  | some operands => self.structuralLoop eval turns (operands.map .enter) (Control.normal state)

def beforeInner (root expr : HirExprId) (state : D) : m D :=
  if expr = root then pure state else self.semantics.beforeExpr expr state

def afterInner (root expr : HirExprId) (control : Control D) : m (Control D) :=
  if expr = root then pure control else self.semantics.afterExprControl expr control

/-- Down the receivers: the first that is no method call, its state, and the calls passed, the
innermost first. -/
def enterReceivers (root : HirExprId) :
    ℕ → HirExprId → D → List HirExprId → Traversal m (HirExprId × D × List HirExprId)
  | 0, current, state, chain => pure (current, state, chain)
  | turns + 1, current, state, chain =>
    match self.program.exprs current with
    | .methodCall receiver _ => do
      let state ← self.beforeInner root current state
      enterReceivers root turns receiver state (current :: chain)
    | _ => pure (current, state, chain)

/-- Other expressions are not in the chain. -/
def callArgs (call : HirExprId) : List HirArg :=
  match self.program.exprs call with
  | .methodCall _ args => args
  | _ => []

def leaveReceiver (root : HirExprId) (control : Control D) (call : HirExprId) :
    Traversal m (Control D) := do
  let control ← argsControl eval (self.callArgs call) control
  let control ← self.applyNormalStep control (self.semantics.methodCall call)
  self.afterInner root call control

def methodCallChainControl (turns : ℕ) (expr : HirExprId) (state : D) :
    Traversal m (Control D) := do
  let (current, state, chain) ← self.enterReceivers expr turns expr state []
  let control ← eval (.expr current) state
  chain.foldlM (self.leaveReceiver eval expr) control

def isIf : HirExpr → Bool
  | .if _ _ _ => true
  | _ => false

def tailIfExprInEmptyBlock (block : HirBlockId) : Option HirExprId :=
  if (self.program.blocks block).stmts.isEmpty then
    (self.program.blocks block).finalExpr.filter fun expr => isIf (self.program.exprs expr)
  else none

structure IfFrame (D : Type) where
  expr : HirExprId
  condition : Control D
  thenControl : Control D

/-- Where an `else` goes on: with another `if`, or with a block or nothing. -/
def elseIfExpr : Option HirElseBranch → Option HirExprId
  | some (.if next) => some next
  | some (.block block) => self.tailIfExprInEmptyBlock block
  | none => none

def elseControl (elseBranch : Option HirElseBranch) (base : D) : Traversal m (Control D) :=
  match elseBranch with
  | some branch => eval branch.node base
  | none => pure (Control.normal base)

/-- Down the chain: the control of its end, and the frames passed, the innermost first. -/
def enterIfs (root : HirExprId) :
    ℕ → HirExprId → D → List (IfFrame D) → Traversal m (Control D × List (IfFrame D))
  | 0, _, _, frames => pure (Control.bottom, frames)
  | turns + 1, current, entry, frames =>
    match self.program.exprs current with
    | .if cond thenBlock elseBranch => do
      let condition ← eval (.expr cond) entry
      match condition.normalState with
      | none => do
        let result ← self.afterInner root current condition
        pure (result, frames)
      | some base => do
        let thenControl ← eval (.block thenBlock) base
        let frames := ⟨current, condition.withoutNormal, thenControl⟩ :: frames
        match self.elseIfExpr elseBranch with
        | some next => do
          let entry ← self.semantics.beforeExpr next base
          enterIfs root turns next entry frames
        | none => do
          let result ← elseControl eval elseBranch base
          pure (result, frames)
    | _ => pure (Control.bottom, frames)

def leaveIf (root : HirExprId) (result : Control D) (frame : IfFrame D) : Traversal m (Control D) :=
  self.afterInner root frame.expr ((frame.condition.join frame.thenControl).join result)

def ifChainControl (turns : ℕ) (expr : HirExprId) (state : D) : Traversal m (Control D) := do
  let (result, frames) ← self.enterIfs eval expr turns expr state []
  frames.foldlM (self.leaveIf expr) result

/-- The interpreter, with a bound on the depth of its calls and the turns of its loops. -/
def control : ℕ → HirNode → D → Traversal m (Control D)
  | 0, _, _ => pure Control.bottom
  | fuel + 1, .expr expr, state =>
    self.exprControl (control fuel) ⟨self.structuralExprControl (control fuel) fuel,
      self.ifChainControl (control fuel) fuel, self.methodCallChainControl (control fuel) fuel⟩
      expr state
  | fuel + 1, .stmt stmt, state => self.stmtControl (control fuel) stmt state
  | fuel + 1, .block block, state => self.blockControl (control fuel) block state

end HirAbstractInterpreter
end EtasFrontend.Analysis
