import EtasFrontend.Lib.Fallible
import EtasFrontend.Optimization.ScanLoop

/-! The three passes that join adjacent loops over equal literal sequences: string projections,
membership probes and pipeline stages. -/
namespace EtasFrontend.Optimization
open Hir (HirExprId HirStmtId HirPatId HirBlockId SymbolId HirLiteral HirArg Halt)
open Lib

/-- What the passes keep of a loop that they have recognised. -/
structure FusedLoop where
  statement : HirStmtId
  pattern : HirPatId
  loopSymbol : SymbolId
  iterable : HirExprId
  limits : List HirExprId
  body : HirBlockId
  bodyStatement : HirStmtId
  targetSymbol : SymbolId
  loopReference : HirExprId

structure Fusion where
  firstBody : HirBlockId
  firstLoopSymbol : SymbolId
  second : FusedLoop

namespace HirProgram
variable (program : HirProgram)

def literalSequence (expr : HirExprId) : Option (List HirLiteral) :=
  (program.sequenceElements expr).bind fun elems => elems.mapM program.literal

def equivalentLiteralSequence (left right : HirExprId) : Bool :=
  let sameKind :=
    match program.exprs left, program.exprs right with
    | .array _, .array _ | .list _, .list _ => true
    | _, _ => false
  sameKind && (program.literalSequence left).isSome &&
    program.literalSequence left == program.literalSequence right

/-- The start of the three matchers: a loop over literals within its limit. -/
def coveredLoop (legality : AgentEffectLegalityFacts) (stmt : HirStmtId) :
    Except Halt (Option (HirPatId × SymbolId × HirExprId × List HirExprId × HirBlockId ×
      HirStmtId)) :=
  match program.stmts stmt with
  | .for pat iter limits body =>
    match program.pats pat, program.literalSequence iter with
    | .binding loopSymbol, some literals => do
      let covers ← FuseProjectionScans.iterationLimitCovers program limits literals.length
      if !covers || !legality.isMovable iter then return none
      match program.blocks body with
      | ⟨[bodyStmt], none, _⟩ => return some (pat, loopSymbol, iter, limits, body, bodyStmt)
      | _ => return none
    | _, _ => pure none
  | _ => pure none

end HirProgram

section
variable (program : HirProgram) (legality : AgentEffectLegalityFacts) (stmt : HirStmtId)

/-- `target = target + item`. -/
def projectionLoop : Except Halt (Option FusedLoop) := do
  match ← program.coveredLoop legality stmt with
  | none => return none
  | some (pat, loopSymbol, iter, limits, body, bodyStmt) =>
    match program.stmts bodyStmt with
    | .assign target value =>
      match program.resolvedPath target, program.exprs value with
      | some targetSymbol, .binary .add lhs rhs =>
        if program.isVar targetSymbol && program.resolvedPath lhs = some targetSymbol &&
            program.resolvedPath rhs = some loopSymbol && legality.isMovable value then
          return some ⟨stmt, pat, loopSymbol, iter, limits, body, bodyStmt, targetSymbol, rhs⟩
        else return none
      | _, _ => return none
    | _ => return none

/-- `if item == query { target = true; }`. -/
def membershipLoop : Except Halt (Option FusedLoop) := do
  match ← program.coveredLoop legality stmt with
  | none => return none
  | some (pat, loopSymbol, iter, limits, body, bodyStmt) =>
    match program.stmts bodyStmt with
    | .if ifExpr =>
      match program.exprs ifExpr with
      | .if cond thenBlock none =>
        match program.exprs cond, program.blocks thenBlock with
        | .binary .eqEq lhs rhs, ⟨[assignment], none, _⟩ =>
          let operands := [(lhs, rhs), (rhs, lhs)].find? fun (candidate, query) =>
            program.resolvedPath candidate = some loopSymbol && (program.literal query).isSome
          match operands, program.stmts assignment with
          | some (loopReference, probe), .assign target value =>
            match program.resolvedPath target with
            | some targetSymbol =>
              if legality.isMovable cond && legality.isMovable probe &&
                  program.literal value = some (.bool true) && legality.isMovable value &&
                  program.isVar targetSymbol then
                return some ⟨stmt, pat, loopSymbol, iter, limits, body, bodyStmt, targetSymbol,
                  loopReference⟩
              else return none
            | none => return none
          | _, _ => return none
        | _, _ => return none
      | _ => return none
    | _ => return none

/-- `target = stage(target, item)`. -/
def stageLoop : Except Halt (Option FusedLoop) := do
  match ← program.coveredLoop legality stmt with
  | none => return none
  | some (pat, loopSymbol, iter, limits, body, bodyStmt) =>
    match program.stmts bodyStmt with
    | .assign target value =>
      match program.resolvedPath target, program.exprs value with
      | some targetSymbol, .call callee [] [.positional accumulator, .positional loopReference] =>
        if program.isVar targetSymbol &&
            program.calledItemHasMarker callee "BoundedPipelineStage" &&
            program.resolvedPath accumulator = some targetSymbol &&
            program.resolvedPath loopReference = some loopSymbol && legality.isMovable value &&
            (legality.expressions value).all fun fact =>
              decide (fact.versionDependencies ⊆ {targetSymbol}) then
          return some ⟨stmt, pat, loopSymbol, iter, limits, body, bodyStmt, targetSymbol,
            loopReference⟩
        else return none
      | _, _ => return none
    | _ => return none

end

/-- The three passes. -/
inductive LoopFusionPass where
  | fuseProjectionScans
  | batchStorageSemijoin
  | scheduleBoundedPipeline

namespace LoopFusionPass
variable (pass : LoopFusionPass) (program : HirProgram) (legality : AgentEffectLegalityFacts)

def matchLoop : HirStmtId → Except Halt (Option FusedLoop) :=
  match pass with
  | .fuseProjectionScans => projectionLoop program legality
  | .batchStorageSemijoin => membershipLoop program legality
  | .scheduleBoundedPipeline => stageLoop program legality

def fusePair (first second : HirStmtId) : Except Halt (Option Fusion) := do
  match ← pass.matchLoop program legality first with
  | none => return none
  | some first =>
    match ← pass.matchLoop program legality second with
    | none => return none
    | some second =>
      let firstCount ← program.iterationCount first.limits
      let secondCount ← program.iterationCount second.limits
      if first.targetSymbol = second.targetSymbol ||
          !program.equivalentLiteralSequence first.iterable second.iterable ||
          firstCount != secondCount then
        return none
      else return some ⟨first.body, first.loopSymbol, second⟩

/-- The statements from `index` on: both of a fused pair are passed over at once. -/
def fuseStatements : List HirStmtId → Except Halt (List Fusion)
  | first :: second :: rest => do
    match ← pass.fusePair program legality first second with
    | some fusion => return fusion :: (← fuseStatements rest)
    | none => fuseStatements (second :: rest)
  | _ => pure []

def findFusions (blocks : List HirBlockId) : Except Halt (List (HirBlockId × List Fusion)) := do
  let found ← blocks.mapM fun block => do
    return (block, ← pass.fuseStatements program legality (program.blocks block).stmts)
  return found.filter fun entry => !entry.2.isEmpty

end LoopFusionPass

/-- The expressions of a literal sequence or of a limit, the stack's top first. -/
def sequenceTree (program : HirProgram) : ℕ → List HirExprId → Except Halt (List HirExprId)
  | _, [] => .ok []
  | 0, _ :: _ => .error .outOfFuel
  | n + 1, expr :: pending => do
    let below ←
      match program.exprs expr with
      | .call callee _ args => pure (callee :: args.map HirArg.expr)
      | .array elems | .list elems => pure elems
      | .literal _ | .path _ => pure []
      | _ => .error .panic
    return expr :: (← sequenceTree program n (below.reverse ++ pending))

/-- The second loop's body statement goes to the end of the first body, and reads its variable. -/
def applyFusion (n : ℕ) (program : HirProgram) (fusion : Fusion) : Except Halt HirProgram := do
  let second := fusion.second
  let iterExprs ← sequenceTree program n [second.iterable]
  let limitExprs ← second.limits.mapM fun limit => sequenceTree program n [limit]
  match program.symbols fusion.firstLoopSymbol, program.exprs second.loopReference with
  | some symbol, .path ⟨_ :: segments, _, span⟩ =>
    let program := program.markOptimizedOut [second.body] [second.statement] [second.pattern]
      (iterExprs ++ limitExprs.flatten).toFinset
    let body := program.blocks fusion.firstBody
    let program := program.setBlock fusion.firstBody
      { body with stmts := body.stmts ++ [second.bodyStatement] }
    return program.setExpr second.loopReference
      (.path ⟨symbol.name :: segments, .resolved fusion.firstLoopSymbol, span⟩)
  | _, _ => .error .panic

def removeFused (program : HirProgram) (parent : HirBlockId) (fusions : List Fusion) : HirProgram :=
  let data := program.blocks parent
  program.setBlock parent { data with
    stmts := data.stmts.filter fun stmt => stmt ∉ fusions.map fun fusion => fusion.second.statement }

def applyFusions (n : ℕ) (program : HirProgram) (entries : List (HirBlockId × List Fusion)) :
    Except Halt HirProgram :=
  entries.foldlM (fun program (parent, fusions) => do
    let program ← fusions.foldlM (applyFusion n) program
    return removeFused program parent fusions) program

end EtasFrontend.Optimization
