import EtasFrontend.Hir.TreeIndex
import Mathlib.Data.Finset.Basic

/-! A checked HIR program as the optimization passes read and rewrite it. All ids of a checked
program are in range, so an arena is a function. -/
namespace EtasFrontend.Optimization
open Hir (HirExprId HirStmtId HirPatId HirBlockId HirHandlerArmId HirItemId HirTypeId
  ScopeId SymbolId ResolveResult ResolvedPath ResolvedActionRef HirReflectTarget HirLiteral HirArg
  HirFieldInit HirMapEntry HirStage HirElseBranch HirMatchArm HirBodyTarget HirUnaryOp HirBinaryOp
  HirStmt HirPat HirBlock HirHandlerArm HirItem HirEffectRow HirAnnotation Symbol SymbolDef
  HirTreeChild)

inductive HirGenericArg where
  | type (ty : HirTypeId)
  | effectRow (row : HirEffectRow)
  | wildcard

inductive HirRangeBounds where
  | closedOpen | openClosed

inductive HirExpr where
  | literal (literal : HirLiteral)
  | path (path : ResolvedPath)
  | reflect (target : HirReflectTarget)
  | record (path : Option ResolvedPath) (genericArgs : List HirGenericArg)
    (fields : List HirFieldInit)
  | emptyRecordOrMap
  | tuple (elems : List HirExprId)
  | array (elems : List HirExprId)
  | list (elems : List HirExprId)
  | listCons (head tail : HirExprId)
  | emptySequence
  | map (entries : List HirMapEntry)
  | set (elems : List HirExprId)
  | range (start stop : HirExprId) (bounds : HirRangeBounds)
  | call (callee : HirExprId) (genericArgs : List HirGenericArg) (args : List HirArg)
  | methodCall (receiver : HirExprId) (method : String) (genericArgs : List HirGenericArg)
    (args : List HirArg)
  | specMethodCall (receiver : HirExprId) (specPath : ResolvedPath) (specArgs : List HirTypeId)
    (method : String) (genericArgs : List HirGenericArg) (args : List HirArg)
  | perform (action : ResolvedActionRef) (genericArgs : List HirGenericArg) (args : List HirArg)
  | infer (action : ResolvedActionRef) (genericArgs : List HirGenericArg) (args : List HirArg)
  | handler (handlers : List HirHandlerArmId)
  | handle (body handler : HirExprId)
  | stageCompose (stages : List HirStage)
  | pipeline (input : HirExprId) (stages : List HirStage)
  | field (base : HirExprId) (name : String)
  | index (base index : HirExprId)
  | slice (base start stop : HirExprId) (bounds : HirRangeBounds)
  | try (expr : HirExprId)
  | unary (op : HirUnaryOp) (expr : HirExprId)
  | binary (op : HirBinaryOp) (lhs rhs : HirExprId)
  | if (cond : HirExprId) (thenBlock : HirBlockId) (elseBranch : Option HirElseBranch)
  | match (scrutinee : HirExprId) (arms : List HirMatchArm)
  | lambda (params : List SymbolId) (body : HirBodyTarget) (scope : ScopeId)
  | block (block : HirBlockId)
  | error

structure HirProgram where
  exprs : HirExprId → HirExpr
  handlerArms : HirHandlerArmId → HirHandlerArm
  stmts : HirStmtId → HirStmt
  pats : HirPatId → HirPat
  blocks : HirBlockId → HirBlock
  items : HirItemId → Option HirItem
  itemAnnotations : HirItemId → List HirAnnotation
  symbols : SymbolId → Option Symbol
  optimizedOutBlocks : Finset HirBlockId
  optimizedOutExprs : Finset HirExprId
  optimizedOutPatterns : Finset HirPatId
  optimizedOutStatements : Finset HirStmtId

/-- The children of an expression that it does not keep in a body of its own. -/
def HirExpr.children : HirExpr → List HirTreeChild
  | .literal _ | .path _ | .reflect _ | .emptyRecordOrMap | .emptySequence | .error => []
  | .record _ _ fields => fields.filterMap fun
    | .shorthand _ _ => none
    | .named _ value => some (.expr value)
  | .tuple elems | .array elems | .list elems | .set elems => elems.map .expr
  | .listCons head tail => [.expr head, .expr tail]
  | .map entries => entries.flatMap fun entry => [.expr entry.key, .expr entry.value]
  | .range start stop _ => [.expr start, .expr stop]
  | .call callee _ args => .expr callee :: args.map fun arg => .expr arg.expr
  | .methodCall receiver _ _ args | .specMethodCall receiver _ _ _ _ args =>
    .expr receiver :: args.map fun arg => .expr arg.expr
  | .perform _ _ args | .infer _ _ args => args.map fun arg => .expr arg.expr
  | .handler handlers => handlers.map .handlerArm
  | .handle body target => [.expr body, .expr target]
  | .stageCompose stages => stages.map fun stage => .expr stage.expr
  | .pipeline input stages => .expr input :: stages.map fun stage => .expr stage.expr
  | .field base _ => [.expr base]
  | .try e | .unary _ e => [.expr e]
  | .index base position => [.expr base, .expr position]
  | .slice base start stop _ => [.expr base, .expr start, .expr stop]
  | .binary _ lhs rhs => [.expr lhs, .expr rhs]
  | .if cond thenBlock elseBranch =>
    .expr cond :: .block thenBlock :: elseBranch.toList.map HirElseBranch.child
  | .match scrutinee arms => .expr scrutinee :: arms.map fun arm => .pattern arm.pat
  | .lambda _ _ _ => []
  | .block b => [.block b]

namespace HirProgram
variable (program : HirProgram)

/-- The symbol is bound by a `var`. -/
def isVar (symbol : SymbolId) : Bool :=
  match program.symbols symbol with
  | some ⟨_, _, .local binding⟩ =>
    match program.stmts binding with
    | .var _ _ => true
    | _ => false
  | _ => false

/-- The expression is a path to a symbol. -/
def resolvedPath (expr : HirExprId) : Option SymbolId :=
  match program.exprs expr with
  | .path path =>
    match path.resolution with
    | .resolved symbol => some symbol
    | _ => none
  | _ => none

theorem resolvedPath_eq_some {expr : HirExprId} {symbol : SymbolId} :
    program.resolvedPath expr = some symbol ↔
      ∃ path, program.exprs expr = .path path ∧ path.resolution = .resolved symbol := by
  unfold resolvedPath
  split
  · split <;> simp_all
  · simp_all

def itemHasMarker (item : HirItemId) (marker : String) : Bool :=
  let arguments := ((program.itemAnnotations item).filter fun annotation =>
    annotation.path.getLast? == some "optimization").flatMap HirAnnotation.args
  let entries := arguments.flatMap fun value =>
    match program.exprs value with
    | .array elems | .list elems => elems
    | _ => [value]
  entries.any fun entry =>
    match program.resolvedPath entry with
    | some symbol => (program.symbols symbol).any fun symbol => symbol.name == marker
    | none => false

def calledItemHasMarker (callee : HirExprId) (marker : String) : Bool :=
  match program.resolvedPath callee with
  | some symbol =>
    match program.symbols symbol with
    | some ⟨_, _, .item item⟩ => program.itemHasMarker item marker
    | _ => false
  | none => false

def markOptimizedOut (blocks : List HirBlockId) (stmts : List HirStmtId) (pats : List HirPatId)
    (exprs : Finset HirExprId) : HirProgram :=
  { program with
    optimizedOutBlocks := program.optimizedOutBlocks ∪ blocks.toFinset
    optimizedOutStatements := program.optimizedOutStatements ∪ stmts.toFinset
    optimizedOutPatterns := program.optimizedOutPatterns ∪ pats.toFinset
    optimizedOutExprs := program.optimizedOutExprs ∪ exprs }

def setExpr (expr : HirExprId) (data : HirExpr) : HirProgram :=
  { program with exprs := Function.update program.exprs expr data }

def setStmt (stmt : HirStmtId) (data : HirStmt) : HirProgram :=
  { program with stmts := Function.update program.stmts stmt data }

def setBlock (block : HirBlockId) (data : HirBlock) : HirProgram :=
  { program with blocks := Function.update program.blocks block data }

/-- Nothing is declared. -/
def empty : HirProgram where
  exprs _ := .error
  handlerArms _ := ⟨⟨⟨[], .unresolved, ⟨0, 0, 0⟩⟩, "", .unresolved, ⟨0, 0, 0⟩⟩, [], none, 0, 0⟩
  stmts _ := .error
  pats _ := .error
  blocks _ := ⟨[], none, 0⟩
  items _ := none
  itemAnnotations _ := []
  symbols _ := none
  optimizedOutBlocks := ∅
  optimizedOutExprs := ∅
  optimizedOutPatterns := ∅
  optimizedOutStatements := ∅

end HirProgram

/-! What the legality pass has found out about an expression. -/

structure AgentExpressionLegalityFact where
  owner : HirItemId
  reads : Finset SymbolId
  versionDependencies : Finset SymbolId
  effectFree : Bool
  deterministic : Bool
  orderStable : Bool

def AgentExpressionLegalityFact.isMovable (fact : AgentExpressionLegalityFact) : Bool :=
  fact.effectFree && fact.deterministic && fact.orderStable

structure AgentEffectLegalityFacts where
  expressions : HirExprId → Option AgentExpressionLegalityFact

namespace AgentEffectLegalityFacts
variable (legality : AgentEffectLegalityFacts)

def isMovable (expr : HirExprId) : Bool :=
  (legality.expressions expr).any AgentExpressionLegalityFact.isMovable

end AgentEffectLegalityFacts

/-- Every expression is movable. -/
def allMovable : AgentEffectLegalityFacts where
  expressions _ := some ⟨0, ∅, ∅, true, true, true⟩

end EtasFrontend.Optimization
