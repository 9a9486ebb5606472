import EtasFrontend.Alias.Captures
import EtasFrontend.Alias.Facts
import EtasFrontend.Analysis.Control

/-! The semantics of the alias analysis, as its callers use it: what it answers for the nodes of a
body, and what it keeps between the calls. -/
namespace EtasFrontend.Alias
open Lib
open Analysis (Control)
open Hir (HirProgram HirItemId HirExprId HirStmtId HirPatId HirHandlerArmId SymbolId
  HirExpr HirPat HirArg HirFieldInit HirMapEntry ResolveResult)

inductive FieldSensitivity where
  | collapsed | namedFields | fullProjection
  deriving DecidableEq

inductive IndexSensitivity where
  | collapsed | constantIndex | keySensitive

inductive HeapModel where
  | noHeap | allocationSite | resourceAware
  deriving DecidableEq

/-- The choices of a configuration that no solver reads. -/
structure AliasSensitivity where
  field : FieldSensitivity
  index : IndexSensitivity
  heap : HeapModel

/-- The two enumerations of the source are alike. -/
abbrev AllocationKind := AllocationSiteKind

structure AliasOracle where
  expressionTarget : HirExprId → Option AliasTarget
  symbolTarget : SymbolId → Option AliasTarget
  allocationSite : HirExprId → AllocationKind → Option AliasTarget
  intrinsicCallSummary : HirExprId → HirExprId → Option UnitSummary
  resourceConstructor : HirExprId → Option AliasTarget

/-- `NoAliasOracle` -/
def AliasOracle.none : AliasOracle where
  expressionTarget _ := Option.none
  symbolTarget symbol := some (.symbol symbol)
  allocationSite _ _ := Option.none
  intrinsicCallSummary _ _ := Option.none
  resourceConstructor _ := Option.none

/-- A state of the domain, with the context of its unit and the rest of its configuration. -/
structure AliasState extends AliasDomain where
  context : List HirExprId
  sensitivity : AliasSensitivity

namespace AliasState

def change (state : AliasState) (f : AliasDomain → AliasDomain) : AliasState :=
  { state with toAliasDomain := f state.toAliasDomain }

def markIncomplete (state : AliasState) : AliasState := state.change .markIncomplete

def incompleteIf (state : AliasState) (incomplete : Bool) : AliasState :=
  if incomplete then state.markIncomplete else state

def assignSymbol (state : AliasState) (symbol : SymbolId) (value : AliasValue) : AliasState :=
  { state with symbols := state.symbols.insert symbol value }

def joinReturn (state : AliasState) (value : AliasValue) : AliasState :=
  { state with
    returnAlias := state.returnAlias.joinWithLimit value state.config.maxAliasSetSize }

end AliasState

/-! Projections and arguments. -/

def fieldProjection (sensitivity : AliasSensitivity) (field : String) : Projection :=
  match sensitivity.field with
  | .collapsed => .collapsedField
  | .namedFields => .field field
  | .fullProjection => .field field

def indexProjection (hir : HirProgram) (sensitivity : AliasSensitivity) (index : HirExprId) :
    Projection :=
  match sensitivity.index, hir.exprs[index]? with
  | .collapsed, _ => .index
  | _, some (.literal (.int text)) => .constIndex text
  | .keySensitive, some (.literal (.string value)) => .mapKey value
  | _, _ => .index

def mapProjection (hir : HirProgram) (sensitivity : AliasSensitivity) (key : HirExprId) :
    Projection :=
  match sensitivity.index, hir.exprs[key]? with
  | .keySensitive, some (.literal (.string value)) => .mapKey value
  | _, _ => .index

def elemProjection (sensitivity : AliasSensitivity) (index : ℕ) : Projection :=
  match sensitivity.index with
  | .collapsed => .index
  | .constantIndex => .constIndex (toString index)
  | .keySensitive => .constIndex (toString index)

def argsOfCall (hir : HirProgram) (call : HirExprId) : List HirExprId :=
  match hir.exprs[call]? with
  | some (.call _ args) => args.map (·.expr)
  | some (.methodCall _ _ args) => args.map (·.expr)
  | some (.specMethodCall _ _ _ args) => args.map (·.expr)
  | _ => []

/-- The parts of a pattern, with what they take of the value. -/
def patParts (sensitivity : AliasSensitivity) : HirPat → List (HirPatId × Projection)
  | .tuple elems => elems.zipIdx.map fun elem => (elem.1, .constIndex (toString elem.2))
  | .record _ fields => fields.filterMap fun field =>
    field.pat.map fun pat => (pat, fieldProjection sensitivity field.name)
  | .variant _ args => args.zipIdx.map fun arg => (arg.1, .constIndex (toString arg.2))
  | .binding _ | .wildcard | .literal _ | .error => []

/-- `computed` is not in the source: all values that were computed, the newest first. -/
structure AliasAnalysis where
  captures : CaptureTables
  facts : AliasFacts
  diagnostics : List (HirExprId × String)
  computed : List (Subject × AliasValue)

def AliasAnalysis.new : AliasAnalysis := ⟨⟨∅, ∅⟩, .empty, [], []⟩

abbrev AliasM := StateT AliasAnalysis Option

/-- A value is computed for an expression or a symbol, and recorded. -/
def publish (subject : Subject) (value : AliasValue) : AliasM Unit :=
  modify fun analysis => { analysis with
    facts := analysis.facts.record subject value
    computed := (subject, value) :: analysis.computed }

/-- `set_expr_alias` and `record_expr`, which only come together. -/
def setExprAlias (state : AliasState) (expr : HirExprId) (value : AliasValue) :
    AliasM AliasState := do
  publish (.expr expr) value
  return state.change (·.setExprAlias expr value)

/-- A diagnostic is told once. -/
def pushDiagnostic (span : HirExprId) (message : String) : AliasM Unit :=
  modify fun analysis => { analysis with
    diagnostics := if (span, message) ∈ analysis.diagnostics then analysis.diagnostics
      else analysis.diagnostics ++ [(span, message)] }

def unknownExpr (state : AliasState) (expr : HirExprId) (message : String) :
    AliasM AliasState := do
  pushDiagnostic expr message
  setExprAlias state.markIncomplete expr .unknown

/-- The semantics without what it keeps. The order of the variables and a bound for recursions are
added. -/
structure AliasSemantics where
  hir : HirProgram
  declParams : HirItemId → List SymbolId
  config : AliasPrecisionConfig
  sensitivity : AliasSensitivity
  oracle : AliasOracle
  lambdaUnits : Map HirExprId HirSemanticUnit
  handlerUnits : Map HirHandlerArmId HirSemanticUnit
  le : AliasVar → AliasVar → Bool
  depth : ℕ

namespace AliasSemantics

def addLambdaUnit (units : Map HirExprId HirSemanticUnit) (unit : HirSemanticUnit) :
    Map HirExprId HirSemanticUnit :=
  match unit with
  | .anonymousFlow _ expr _ => units.insert expr unit
  | _ => units

def addHandlerUnit (units : Map HirHandlerArmId HirSemanticUnit) (unit : HirSemanticUnit) :
    Map HirHandlerArmId HirSemanticUnit :=
  match unit with
  | .handlerArm arm => units.insert arm unit
  | _ => units

def new (hir : HirProgram) (declParams : HirItemId → List SymbolId) (units : List HirSemanticUnit)
    (config : AliasPrecisionConfig) (sensitivity : AliasSensitivity) (oracle : AliasOracle)
    (le : AliasVar → AliasVar → Bool) (depth : ℕ) : AliasSemantics where
  hir := hir
  declParams := declParams
  config := config
  sensitivity := sensitivity
  oracle := oracle
  lambdaUnits := units.foldl addLambdaUnit ∅
  handlerUnits := units.foldl addHandlerUnit ∅
  le := le
  depth := depth

variable (self : AliasSemantics)

def allocationForUnit (unit : Option HirSemanticUnit) (expr : HirExprId) (kind : AllocationKind) :
    AliasM AliasValue := do
  if self.sensitivity.heap = .noHeap then
    pushDiagnostic expr "alias heap model is disabled for allocation"
    return .unknown
  let site := match self.config.allocationSensitivity with
    | .perType => .allocationKind none kind
    | .perExpression => .allocation unit expr
    | .perCallSite => .allocation unit expr
  return .fromTarget ((self.oracle.allocationSite expr kind).getD site)

def solveUnknownCall (state : AliasState) (call callee : HirExprId) :
    Option (AliasValue × Bool) := do
  let args := (argsOfCall self.hir call).zipIdx
  let solution ← AliasConstraintFrame.solve state.config self.le
    ((.expr callee, state.exprAlias callee) ::
      args.map fun arg => (.synthetic arg.2, state.exprAlias arg.1))
    [.call (some (.expr call)) (.expr callee) (args.map fun arg => .synthetic arg.2) call]
  return (solution.value (.expr call), solution.incomplete)

def assignSymbolWithConstraints (state : AliasState) (symbol : SymbolId) (value : AliasValue)
    (strongUpdate : Bool) : Option (AliasValue × AliasState) := do
  let (solved, incomplete) ← solveCopyUpdate state.config self.le (.symbol symbol)
    (state.symbols.get symbol) value strongUpdate
  return (solved, (state.incompleteIf incomplete).assignSymbol symbol solved)

/-- An assignment, and the record that every caller makes of it. -/
def updateSymbol (state : AliasState) (symbol : SymbolId) (value : AliasValue)
    (strongUpdate : Bool) : AliasM AliasState := do
  let (solved, state) ← self.assignSymbolWithConstraints state symbol value strongUpdate
  publish (.symbol symbol) solved
  return state

def assignPlace (state : AliasState) (place : Place) (value : AliasValue) (strongUpdate : Bool) :
    Option AliasState := do
  let domain ← assignPlaceWithConstraints self.le state.toAliasDomain place value strongUpdate
  return { state with toAliasDomain := domain }

/-- The state after a projection of a fresh allocation is assigned. -/
def assignPart (root : Place) (projection : Projection) (value : AliasValue) (strongUpdate : Bool)
    (state : AliasState) : Option AliasState :=
  match root.project projection state.config.maxProjectionDepth with
  | some place => self.assignPlace state place value strongUpdate
  | none => some state.markIncomplete

def pathAlias (state : AliasState) : ResolveResult → AliasValue
  | .resolved symbol =>
    ((state.symbols.get symbol).or ((self.oracle.symbolTarget symbol).map .fromTarget)).getD
      .unknown
  | .partiallyResolved _ => .unknown
  | .unresolved => .unknown
  | .ambiguous _ => .unknown

def bindPattern : ℕ → HirPatId → AliasValue → AliasState → AliasM AliasState
  | 0, _, _, _ => failure
  | n + 1, pat, value, state =>
    match self.hir.pats[pat]? with
    | none => return state.markIncomplete
    | some (.binding symbol) => self.updateSymbol state symbol value true
    | some .error => return state.markIncomplete
    | some data => (patParts state.sensitivity data).foldlM (fun state part => do
        let (value, incomplete) ← solveProjectionValue state.config self.le value part.2
        bindPattern n part.1 value (state.incompleteIf incomplete)) state

variable [LinearOrder Place] [LinearOrder AliasValueExpr]

/-- To the place that the target is for certain, or weakly to all that it may be. -/
def assignAlias (state : AliasState) (target value : AliasValue) (strongUpdate : Bool) :
    Option AliasState :=
  match target.must with
  | some place => self.assignPlace state place value strongUpdate
  | none => do
    let places := match target.may with
      | .known places => places.sort (· ≤ ·)
      | _ => []
    let state ← places.foldlM (fun state place => self.assignPlace state place value false) state
    return state.incompleteIf target.isUnknown

def assignTarget (state : AliasState) (target : HirExprId) (value : AliasValue) :
    AliasM AliasState := do
  let strongUpdate := state.config.updatePolicy == .strongWhenMustAlias
  match self.hir.exprs[target]? with
  | none => failure
  | some (.path path) =>
    match path.resolution with
    | .resolved symbol => self.updateSymbol state symbol value strongUpdate
    | _ =>
      pushDiagnostic target "assignment target path is not resolved"
      return state.markIncomplete
  | some (.field _ _) => self.assignAlias state (state.exprAlias target) value strongUpdate
  | some (.index _ _) => self.assignAlias state (state.exprAlias target) value strongUpdate
  | some _ =>
    pushDiagnostic target "unsupported assignment target"
    return state.markIncomplete

def markEscaped (state : AliasState) (exprs : List HirExprId) : AliasState :=
  exprs.foldl (fun state expr => state.change (·.markEscaped (state.exprAlias expr))) state

/-- What a caller reads of a summary. -/
def callSummary (summary : UnitSummary) : AliasSummary where
  returnAlias := summary.returnAlias
  escaped := AliasValueExpr.sorted summary.escaped
  writes := summary.writes
  captures := summary.captures
  incomplete := summary.incomplete

def applyEscapes (state : AliasState) (escaped : List AliasValueExpr)
    (instantiate : AliasValueExpr → Option AliasValue) : Option AliasState := do
  let domain ← escaped.foldlM (applyEscape instantiate) state.toAliasDomain
  return { state with toAliasDomain := domain }

def applyWrites (state : AliasState) (writes : List AliasWriteEffect)
    (instantiate : AliasValueExpr → Option AliasValue) : Option AliasState := do
  let domain ← writes.foldlM (applyWrite self.le instantiate) state.toAliasDomain
  return { state with toAliasDomain := domain }

def applySummaryToCall (state : AliasState) (call : HirExprId)
    (callee : Option ContextualAliasUnit) (summary : AliasSummary) : AliasM AliasState := do
  let analysis ← get
  let instantiate := instantiateValueAtCall state.config self.le state.unit
    (capturesForCall analysis.captures callee summary) call
    ((argsOfCall self.hir call).map state.exprAlias) self.depth
  let value ← instantiate summary.returnAlias
  let state ← setExprAlias state call value
  let state ← applyEscapes state summary.escaped instantiate
  let state ← self.applyWrites state summary.writes instantiate
  return state.incompleteIf summary.incomplete

def applyExternalOrUnknown (state : AliasState) (call callee : HirExprId) :
    AliasM AliasState := do
  match self.oracle.resourceConstructor call with
  | some target => setExprAlias state call (.fromTarget target)
  | none =>
    match self.oracle.intrinsicCallSummary call callee with
    | some summary => self.applySummaryToCall state call none (callSummary summary)
    | none =>
      let state := markEscaped state (argsOfCall self.hir call)
      let (value, incomplete) ← self.solveUnknownCall state call callee
      let state ← unknownExpr (state.incompleteIf incomplete) call
        "call target has no alias summary"
      setExprAlias state call value

def captureValue (state : AliasState) (unit : HirSemanticUnit) (symbol : SymbolId) :
    AliasValueExpr :=
  match state.symbols.get symbol, self.oracle.symbolTarget symbol with
  | some value, _ => .valueToExpr value unit
  | none, some target => .valueToExpr (.fromTarget target) unit
  | none, none => .unknown

/-- The entries of a unit, with these inserted. -/
def addCaptures {κ : Type} [DecidableEq κ] (tables : Map κ (Map SymbolId AliasValueExpr)) (unit : κ)
    (values : List (SymbolId × AliasValueExpr)) : Map κ (Map SymbolId AliasValueExpr) :=
  tables.insert unit
    (values.foldl (fun entries value => entries.insert value.1 value.2) ((tables.get unit).getD ∅))

def recordCaptureValues (state : AliasState) (unit : HirSemanticUnit)
    (captured : Finset SymbolId) : AliasM Unit :=
  match state.unit with
  | none => return
  | some current =>
    let values := (captured.sort (· ≤ ·)).map fun symbol =>
      (symbol, self.captureValue state current symbol)
    modify fun analysis => { analysis with captures :=
      ⟨addCaptures analysis.captures.captures ⟨unit, state.context⟩ values,
        addCaptures analysis.captures.semanticCaptures unit values⟩ }

def recordLambdaCaptures (state : AliasState) (expr : HirExprId) : AliasM Unit :=
  match self.lambdaUnits.get expr, self.hir.exprs[expr]? with
  | some unit, some (.lambda params body _) => do
    let captured ← lambdaCaptures self.hir self.depth params body
    self.recordCaptureValues state unit captured
  | _, _ => return

def recordHandlerArmCaptures (state : AliasState) (arm : HirHandlerArmId) : AliasM Unit :=
  match self.handlerUnits.get arm, self.hir.handlerArms[arm]? with
  | some unit, some data => do
    let captured ← armCaptures self.hir self.depth data
    self.recordCaptureValues state unit captured
  | _, _ => return

def recordHandlerCaptures (state : AliasState) (expr : HirExprId) : AliasM Unit :=
  match self.hir.exprs[expr]? with
  | some (.handler handlers) =>
    handlers.foldlM (fun _ arm => self.recordHandlerArmCaptures state arm) ()
  | _ => return

/-- The fields of a record, in a state and under its root. -/
def initField (root : Place) (state : AliasState) (field : HirFieldInit) : Option AliasState :=
  let strongUpdate := state.sensitivity.field != .collapsed
  match field with
  | .named name value => self.assignPart root (fieldProjection state.sensitivity name)
    (state.exprAlias value) strongUpdate state
  | .shorthand name (.resolved symbol) =>
    self.assignPart root (fieldProjection state.sensitivity name)
      ((state.symbols.get symbol).getD .unknown) strongUpdate state
  | .shorthand _ _ => some state.markIncomplete

def initEntry (root : Place) (state : AliasState) (entry : HirMapEntry) : Option AliasState :=
  self.assignPart root (mapProjection self.hir state.sensitivity entry.key)
    (state.exprAlias entry.value) false state

def initElem (root : Place) (state : AliasState) (elem : HirExprId × ℕ) : Option AliasState :=
  self.assignPart root (elemProjection state.sensitivity elem.2) (state.exprAlias elem.1) false
    state

/-- An allocation, and what is put into it if it is one place. -/
def allocate (state : AliasState) (expr : HirExprId) (kind : AllocationKind)
    (fill : Place → Option AliasState) : AliasM (AliasValue × AliasState) := do
  let value ← self.allocationForUnit state.unit expr kind
  match value.must with
  | some root =>
    let state ← fill root
    return (value, state)
  | none => return (value, state)

def sequenceAllocation (state : AliasState) (expr : HirExprId) (kind : AllocationKind)
    (elems : List HirExprId) : AliasM (AliasValue × AliasState) :=
  self.allocate state expr kind fun root => elems.zipIdx.foldlM (self.initElem root) state

/-- What the heap holds at the place, if it is known for certain. -/
def projectRead (state : AliasState) (base : AliasValue) (projection : Projection) :
    Option (AliasValue × AliasState) := do
  let (projected, incomplete) ← solveProjectionValue state.config self.le base projection
  let value := (projected.must.bind state.heap.get).getD projected
  return (value, state.incompleteIf incomplete)

def unresolvedPath (state : AliasState) (expr : HirExprId) (value : AliasValue) :
    AliasM (AliasValue × AliasState) := do
  if value.isUnknown then
    pushDiagnostic expr "path alias target is unresolved"
    return (value, state.markIncomplete)
  return (value, state)

/-- The alias of an expression whose parts have theirs. -/
def aliasOfExpr (state : AliasState) (expr : HirExprId) :
    HirExpr → AliasM (AliasValue × AliasState)
  | .reflect _ => return (.bottom, state)
  | .literal _ => return (.bottom, state)
  | .emptyRecordOrMap => return (.bottom, state)
  | .emptySequence => return (.bottom, state)
  | .path path => unresolvedPath state expr (self.pathAlias state path.resolution)
  | .record _ fields =>
    self.allocate state expr .record fun root => fields.foldlM (self.initField root) state
  | .tuple elems => self.sequenceAllocation state expr .tuple elems
  | .array elems => self.sequenceAllocation state expr .array elems
  | .list elems => self.sequenceAllocation state expr .array elems
  | .set elems => self.sequenceAllocation state expr .array elems
  | .map entries =>
    self.allocate state expr .map fun root => entries.foldlM (self.initEntry root) state
  | .range _ _ => self.allocate state expr .range fun _ => some state
  | .field base field =>
    self.projectRead state (state.exprAlias base) (fieldProjection state.sensitivity field)
  | .index base index =>
    self.projectRead state (state.exprAlias base) (indexProjection self.hir state.sensitivity index)
  | .slice base _ _ => self.projectRead state (state.exprAlias base) .index
  | .lambda _ _ _ => do
    self.recordLambdaCaptures state expr
    self.allocate state expr .lambda fun _ => some state
  | .handler _ => do
    self.recordHandlerCaptures state expr
    self.allocate state expr .handler fun _ => some state
  | .block _ => return (state.lastExprAlias, state)
  | .if _ _ _ => return (state.lastExprAlias, state)
  | .match _ _ => return (state.lastExprAlias, state)
  | .try _ => return (state.lastExprAlias, state)
  | .unary _ _ => return (state.lastExprAlias, state)
  | .binary _ _ _ => return (state.lastExprAlias, state)
  | .handle _ _ => return (state.lastExprAlias, state)
  | .stageCompose _ => return (state.lastExprAlias, state)
  | .pipeline _ _ => return (state.lastExprAlias, state)
  | .listCons _ _ => return (state.lastExprAlias, state)
  | .call _ _ => return (state.exprAlias expr, state)
  | .methodCall _ _ _ => return (state.exprAlias expr, state)
  | .specMethodCall _ _ _ _ => return (state.exprAlias expr, state)
  | .perform _ _ => return (state.exprAlias expr, state)
  | .infer _ _ => self.allocate state expr .unknown fun _ => some state
  | .error => return (.unknown, state.markIncomplete)

def finishExprAlias (expr : HirExprId) (state : AliasState) : AliasM AliasState := do
  match self.hir.exprs[expr]? with
  | none => failure
  | some data =>
    let (value, state) ← self.aliasOfExpr state expr data
    setExprAlias (state.incompleteIf value.isUnknown) expr value

/-! The hooks of a traversal. -/

def afterExpr (expr : HirExprId) (state : AliasState) : AliasM AliasState :=
  match self.oracle.expressionTarget expr with
  | some target => setExprAlias state expr (.fromTarget target)
  | none => self.finishExprAlias expr state

/-- An expression is finished on every way out of it. -/
def afterExprControl (expr : HirExprId) (control : Control AliasState) :
    AliasM (Control AliasState) :=
  control.mapStates (self.afterExpr expr)

def afterStmt (stmt : HirStmtId) (state : AliasState) : AliasM AliasState :=
  match self.hir.stmts[stmt]? with
  | none => return state.markIncomplete
  | some (.let pat value) => self.bindPattern self.depth pat (state.exprAlias value) state
  | some (.var pat value) => self.bindPattern self.depth pat (state.exprAlias value) state
  | some (.assign target value) => self.assignTarget state target (state.exprAlias value)
  | some (.return (some value)) => return state.joinReturn (state.exprAlias value)
  | some (.resume (some value)) => return markEscaped state [value]
  | some (.finish value) => return state.joinReturn (state.exprAlias value)
  | some _ => return state

def afterStmtControl (stmt : HirStmtId) (control : Control AliasState) :
    AliasM (Control AliasState) :=
  control.mapStates (self.afterStmt stmt)

def perform (expr : HirExprId) (args : List HirArg) (state : AliasState) : AliasM AliasState :=
  unknownExpr (markEscaped state (args.map (·.expr))) expr
    "perform has no alias oracle summary"

def methodCall (expr : HirExprId) (state : AliasState) : AliasM AliasState :=
  match self.hir.exprs[expr]? with
  | some (.methodCall receiver _ _) => self.applyExternalOrUnknown state expr receiver
  | _ => self.applyExternalOrUnknown state expr expr

def stageCompose (expr : HirExprId) (state : AliasState) : AliasM AliasState :=
  unknownExpr state expr "stage composition aliases are unknown"

def pipeline (expr : HirExprId) (state : AliasState) : AliasM AliasState :=
  unknownExpr state expr "pipeline aliases are unknown"

def tryExpr (expr : HirExprId) (state : AliasState) : AliasM AliasState :=
  match self.hir.exprs[expr]? with
  | some (.try operand) => setExprAlias state expr (state.exprAlias operand)
  | _ => return state

def handleExpr (expr : HirExprId) (state : AliasState) : AliasM AliasState :=
  unknownExpr state expr "handler application aliases are unknown"

def lambdaBoundary (expr : HirExprId) (state : AliasState) : AliasM AliasState := do
  self.recordLambdaCaptures state expr
  let value ← self.allocationForUnit state.unit expr .lambda
  setExprAlias state expr value

def handlerBoundary (expr : HirExprId) (state : AliasState) : AliasM AliasState := do
  self.recordHandlerCaptures state expr
  let value ← self.allocationForUnit state.unit expr .handler
  setExprAlias state expr value

/-! The hooks of the solver. -/

/-- The state at the entry of a unit, before its parameters are bound. -/
def entryState (unit : ContextualAliasUnit) : AliasState where
  toAliasDomain := { AliasDomain.new self.config with unit := some unit.semantic }
  context := unit.calls
  sensitivity := self.sensitivity

def bindParam (unit : HirSemanticUnit) (state : AliasState) (param : SymbolId × ℕ) :
    AliasM AliasState := do
  let value := AliasValue.fromTarget (.param unit param.2)
  publish (.symbol param.1) value
  return state.assignSymbol param.1 value

/-- What comes from outside is neither bound nor assigned by the unit. -/
def enterCaptured (unit : HirSemanticUnit) (state : AliasState) (symbol : SymbolId) : AliasState :=
  state.assignSymbol symbol (.fromTarget (.captured unit symbol))

def beginUnit (unit : ContextualAliasUnit) : AliasM AliasState := do
  let params := (paramsForUnit self.hir self.declParams unit.semantic).zipIdx
  let state ← params.foldlM (bindParam unit.semantic) (self.entryState unit)
  let captured ← captureSymbolsForUnit self.hir self.depth unit.semantic
  return (captured.sort (· ≤ ·)).foldl (enterCaptured unit.semantic) state

def exitStates (exit : Control AliasState) : List AliasState :=
  [exit.normalState, exit.returnState, exit.breakState, exit.continueState, exit.resumeState,
    exit.finishState, exit.errorState].flatMap Option.toList

/-- `into_joined_domain` -/
def joinedDomain (exit : Control AliasState) : AliasDomain :=
  (exitStates exit).foldl (fun joined state => (joined.joinAssign state.toAliasDomain).1)
    (.new .balanced)

/-- A unit that ends normally returns the value of its last expression. -/
def joinedReturn (exit : Control AliasState) : AliasValue :=
  match exit.normalState with
  | some normal => (joinedDomain exit).returnAlias.joinWithLimit normal.lastExprAlias
    self.config.maxAliasSetSize
  | none => (joinedDomain exit).returnAlias

def placeExpr (unit : HirSemanticUnit) (place : Place) : AliasValueExpr :=
  .valueToExpr (.fromPlace place) unit

def unitSummary (captures : CaptureTables) (unit : ContextualAliasUnit)
    (exit : Control AliasState) : UnitSummary where
  unit := some unit.semantic
  params := (paramsForUnit self.hir self.declParams unit.semantic).mapIdx fun index _ =>
    ⟨decide (.formalParam index ∈ (joinedDomain exit).escaped.image (placeExpr unit.semantic))⟩
  returnAlias := .valueToExpr (self.joinedReturn exit) unit.semantic
  escaped := (joinedDomain exit).escaped.image (placeExpr unit.semantic)
  writes := ((joinedDomain exit).heap.toList.insertionSort fun a b => a.1 ≤ b.1).map fun write =>
    ⟨placeExpr unit.semantic write.1, .valueToExpr write.2 unit.semantic⟩
  captures := (captures.captures.get unit).getD ∅
  incomplete := (joinedDomain exit).incomplete
  maxAliasSetSize := self.config.maxAliasSetSize

def endUnit (unit : ContextualAliasUnit) (exit : Control AliasState) : AliasM UnitSummary := do
  let analysis ← get
  let summary := self.unitSummary analysis.captures unit exit
  modify fun analysis =>
    { analysis with facts := analysis.facts.recordSummary unit.semantic summary }
  return summary

def directCall (call : HirExprId) (callee : ContextualAliasUnit) (summary : UnitSummary)
    (state : AliasState) : AliasM AliasState :=
  self.applySummaryToCall state call (some callee) (callSummary summary)

def incompleteCall (call : HirExprId) (state : AliasState) : AliasM AliasState :=
  unknownExpr state call "call target is incomplete"

end AliasSemantics
end EtasFrontend.Alias
