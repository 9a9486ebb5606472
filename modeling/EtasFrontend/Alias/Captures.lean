import EtasFrontend.Alias.Domain
import EtasFrontend.Hir.TreeIndex

/-! The symbols that the body of a lambda or of a handler arm takes from outside. -/
namespace EtasFrontend.Alias
open Hir (HirProgram HirItemId HirExprId HirStmtId HirBlockId HirPatId HirHandlerArmId
  SymbolId HirExpr HirStmt HirBlock HirPat HirBodyTarget HirElseBranch HirFieldInit HirHandlerArm
  HirItem HirReflectTarget ResolvedPath)

/-- What the collection reads next: a node, or the bindings of a pattern. -/
inductive CaptureTask where
  | expr (expr : HirExprId)
  | stmt (stmt : HirStmtId)
  | block (block : HirBlockId)
  | bindings (pat : HirPatId)

def CaptureTask.body : HirBodyTarget → CaptureTask
  | .expr e => .expr e
  | .block b => .block b

/-- The sets that a collection changes. -/
structure CaptureSets where
  locals : Finset SymbolId
  captured : Finset SymbolId

namespace CaptureSets

def use (sets : CaptureSets) : Option SymbolId → CaptureSets
  | some symbol =>
    if symbol ∈ sets.locals then sets else { sets with captured := insert symbol sets.captured }
  | none => sets

def bind (sets : CaptureSets) : HirPat → CaptureSets
  | .binding symbol => { sets with locals := insert symbol sets.locals }
  | _ => sets

end CaptureSets

def rootPath : HirReflectTarget → ResolvedPath
  | .path path => path
  | .specMethod receiver _ _ => receiver

/-- The symbol that an expression reads itself. -/
def usedSymbol : HirExpr → Option SymbolId
  | .reflect target =>
    match (rootPath target).resolution with
    | .resolved symbol => some symbol
    | .partiallyResolved resolution => resolution.resolvedPrefix
    | _ => none
  | .path path =>
    match path.resolution with
    | .resolved symbol => some symbol
    | _ => none
  | _ => none

/-- The patterns of match arms bind nothing here, and other lambdas and handlers are not entered. -/
def exprTasks : HirExpr → List CaptureTask
  | .record _ fields => fields.filterMap fun
    | .shorthand _ _ => none
    | .named _ value => some (.expr value)
  | .tuple elems | .array elems | .list elems | .set elems => elems.map .expr
  | .listCons head tail => [.expr head, .expr tail]
  | .map entries => entries.flatMap fun entry => [.expr entry.key, .expr entry.value]
  | .range start stop => [.expr start, .expr stop]
  | .call callee args => .expr callee :: args.map fun arg => .expr arg.expr
  | .methodCall receiver _ args | .specMethodCall receiver _ _ args =>
    .expr receiver :: args.map fun arg => .expr arg.expr
  | .perform _ args | .infer _ args => args.map fun arg => .expr arg.expr
  | .handle body handler => [.expr body, .expr handler]
  | .stageCompose stages => stages.flatMap fun stage => .expr stage.expr :: stage.limits.map .expr
  | .pipeline input stages =>
    .expr input :: stages.flatMap fun stage => .expr stage.expr :: stage.limits.map .expr
  | .field base _ => [.expr base]
  | .try e | .unary _ e => [.expr e]
  | .index base position => [.expr base, .expr position]
  | .slice base start stop => [.expr base, .expr start, .expr stop]
  | .binary _ lhs rhs => [.expr lhs, .expr rhs]
  | .if cond thenBlock elseBranch =>
    .expr cond :: .block thenBlock :: elseBranch.toList.map fun
      | .if e => .expr e
      | .block b => .block b
  | .match scrutinee arms => .expr scrutinee :: arms.map fun arm => .body arm.body
  | .block b => [.block b]
  | _ => []

def stmtTasks : HirStmt → List CaptureTask
  | .let pat value | .var pat value => [.expr value, .bindings pat]
  | .assign target value => [.expr target, .expr value]
  | .expr e | .if e | .match e | .finish e => [.expr e]
  | .return value | .resume value => value.toList.map .expr
  | .for _ iter limits body => .expr iter :: limits.map .expr ++ [.block body]
  | .while cond limits body => .expr cond :: limits.map .expr ++ [.block body]
  | .retry limits body => limits.map .expr ++ [.block body]
  | .break | .continue | .error => []

def blockTasks (block : HirBlock) : List CaptureTask :=
  block.stmts.map .stmt ++ block.finalExpr.toList.map .expr

def patTasks : HirPat → List CaptureTask
  | .tuple elems => elems.map .bindings
  | .record _ fields => fields.filterMap fun field => field.pat.map .bindings
  | .variant _ args => args.map .bindings
  | .binding _ | .wildcard | .literal _ | .error => []

variable (hir : HirProgram)

/-- `collect_expr_captures`, `collect_stmt_captures`, `collect_block_captures` and
`collect_pattern_bindings`, with a bound on their depth. A node that is not there adds nothing. -/
def collectCaptures : ℕ → CaptureSets → CaptureTask → Option CaptureSets
  | 0, _, _ => none
  | n + 1, sets, .expr e =>
    match hir.exprs[e]? with
    | some data => (exprTasks data).foldlM (collectCaptures n) (sets.use (usedSymbol data))
    | none => some sets
  | n + 1, sets, .stmt s =>
    match hir.stmts[s]? with
    | some data => (stmtTasks data).foldlM (collectCaptures n) sets
    | none => some sets
  | n + 1, sets, .block b =>
    match hir.blocks[b]? with
    | some data => (blockTasks data).foldlM (collectCaptures n) sets
    | none => some sets
  | n + 1, sets, .bindings pat =>
    match hir.pats[pat]? with
    | some data => (patTasks data).foldlM (collectCaptures n) (sets.bind data)
    | none => some sets

def lambdaCaptures (depth : ℕ) (params : List SymbolId) (body : HirBodyTarget) :
    Option (Finset SymbolId) := do
  let sets ← collectCaptures hir depth ⟨params.toFinset, ∅⟩ (.body body)
  return sets.captured

def armCaptures (depth : ℕ) (arm : HirHandlerArm) : Option (Finset SymbolId) := do
  let sets ← (arm.patterns.map .bindings).foldlM (collectCaptures hir depth) ⟨∅, ∅⟩
  let sets ← collectCaptures hir depth sets (.block arm.body)
  return sets.captured

/-- The parameters of tools and agents are not in their declarations here. -/
def paramsForUnit (declParams : HirItemId → List SymbolId) : HirSemanticUnit → List SymbolId
  | .item item =>
    match hir.items[item]? with
    | some (.flow decl) => decl.params
    | some (.tool _ _) => declParams item
    | some (.agent _ _) => declParams item
    | _ => []
  | .anonymousFlow _ expr _ =>
    match hir.exprs[expr]? with
    | some (.lambda params _ _) => params
    | _ => []
  | .handlerArm _ => []
  | .topLevelLet _ => []

def captureSymbolsForUnit (depth : ℕ) : HirSemanticUnit → Option (Finset SymbolId)
  | .anonymousFlow _ expr _ =>
    match hir.exprs[expr]? with
    | some (.lambda params body _) => lambdaCaptures hir depth params body
    | _ => some ∅
  | .handlerArm arm =>
    match hir.handlerArms[arm]? with
    | some data => armCaptures hir depth data
    | none => some ∅
  | .item _ => some ∅
  | .topLevelLet _ => some ∅

end EtasFrontend.Alias
