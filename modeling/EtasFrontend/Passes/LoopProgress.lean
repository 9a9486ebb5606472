import EtasFrontend.Hir.Visit

/-! Loops whose condition compares a variable that their body does not assign. -/
namespace EtasFrontend.Passes
open Lib Hir Relation

/-- `NonProgressingLoop`, at the statement of the loop. -/
structure NonProgressingLoop where
  loop : HirStmtId
  message : String
  deriving DecidableEq

namespace LoopProgressAnalyzer
variable (hir : HirProgram)

def exprAt (expr : HirExprId) : Except Halt HirExpr :=
  match hir.exprs[expr]? with
  | some data => .ok data
  | none => .error .panic

def stmtAt (stmt : HirStmtId) : Except Halt HirStmt :=
  match hir.stmts[stmt]? with
  | some data => .ok data
  | none => .error .panic

def pathSymbol (expr : HirExprId) : Except Halt (Option SymbolId) := do
  match ← exprAt hir expr with
  | .path path =>
    match path.resolution with
    | .resolved symbol => .ok (some symbol)
    | _ => .ok none
  | _ => .ok none

def elseBranchAssignsSymbol (block : HirBlockId → Except Halt Bool)
    (expr : HirExprId → Except Halt Bool) : HirElseBranch → Except Halt Bool
  | .block b => block b
  | .if e => expr e

def armAssignsSymbol (block : HirBlockId → Except Halt Bool)
    (expr : HirExprId → Except Halt Bool) (arm : HirMatchArm) : Except Halt Bool :=
  match arm.body with
  | .expr e => expr e
  | .block b => block b

variable (symbol : SymbolId)

mutual

/-- A block that is not there assigns nothing. -/
def blockAssignsSymbol : ℕ → HirBlockId → Except Halt Bool
  | 0, _ => .error .outOfFuel
  | fuel + 1, block =>
    match hir.blocks[block]? with
    | none => .ok false
    | some block => do
      if ← block.stmts.anyM (stmtAssignsSymbol fuel) then .ok true
      else
        match block.finalExpr with
        | none => .ok false
        | some expr => exprAssignsSymbol fuel expr

def stmtAssignsSymbol : ℕ → HirStmtId → Except Halt Bool
  | 0, _ => .error .outOfFuel
  | fuel + 1, stmt => do
    match ← stmtAt hir stmt with
    | .assign target _ =>
      let assigned ← pathSymbol hir target
      .ok (assigned == some symbol)
    | .if expr | .match expr | .expr expr => exprAssignsSymbol fuel expr
    | .for _ _ _ body | .while _ _ body | .retry _ body => blockAssignsSymbol fuel body
    | _ => .ok false

def exprAssignsSymbol : ℕ → HirExprId → Except Halt Bool
  | 0, _ => .error .outOfFuel
  | fuel + 1, expr => do
    match ← exprAt hir expr with
    | .if _ thenBlock elseBranch =>
      if ← blockAssignsSymbol fuel thenBlock then .ok true
      else
        match elseBranch with
        | none => .ok false
        | some branch =>
          elseBranchAssignsSymbol (blockAssignsSymbol fuel) (exprAssignsSymbol fuel) branch
    | .match _ arms =>
      arms.anyM (armAssignsSymbol (blockAssignsSymbol fuel) (exprAssignsSymbol fuel))
    | .block block => blockAssignsSymbol fuel block
    | _ => .ok false

end

def isOrdering : HirBinaryOp → Bool
  | .lt | .ltEq | .gt | .gtEq => true
  | _ => false

def conditionProgressSymbol (expr : HirExprId) : Except Halt (Option SymbolId) := do
  match ← exprAt hir expr with
  | .binary op lhs _ => if isOrdering op then pathSymbol hir lhs else .ok none
  | _ => .ok none

def loopVariableName (symbol : SymbolId) : String :=
  match hir.symbols.symbols[symbol]? with
  | some data => data.name
  | none => "loop variable"

def nonProgressingLoop (loop : HirStmtId) (symbol : SymbolId) : NonProgressingLoop :=
  ⟨loop, "loop body does not advance " ++ loopVariableName hir symbol⟩

def checkStmt (fuel : ℕ) (stmt : HirStmtId) (diagnostics : List NonProgressingLoop) :
    Except Halt (List NonProgressingLoop) :=
  match hir.stmts[stmt]? with
  | some (.while cond _ body) => do
    match ← conditionProgressSymbol hir cond with
    | none => .ok diagnostics
    | some symbol =>
      if ← blockAssignsSymbol hir symbol fuel body then .ok diagnostics
      else .ok (diagnostics ++ [nonProgressingLoop hir stmt symbol])
  | _ => .ok diagnostics

/-- Every statement of the arena is checked. -/
def run (fuel : ℕ) : Except Halt (List NonProgressingLoop) :=
  (List.range hir.stmts.length).foldlM (fun diagnostics stmt => checkStmt hir fuel stmt diagnostics)
    []

end LoopProgressAnalyzer
end EtasFrontend.Passes
