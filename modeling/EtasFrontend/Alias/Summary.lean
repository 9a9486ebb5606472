import EtasFrontend.Alias.Solver
import EtasFrontend.Analysis.Hir

/-! The effect of a call, from the summary of its target. -/
namespace EtasFrontend.Alias
open Lib
open Hir (HirItemId HirExprId SymbolId)
open Analysis (HirExpr)

inductive AliasValueExpr where
  | bottom
  | formalParam (index : ℕ)
  | allocation (unit : Option HirSemanticUnit) (expr : HirExprId)
  | allocationKind (unit : Option HirSemanticUnit) (kind : AllocationSiteKind)
  | captured (symbol : SymbolId)
  | topLevel (item : HirItemId)
  | resourceHandle (symbol : SymbolId)
  | memoryPlace (path : List String)
  | unknown
  | project (base : AliasValueExpr) (projection : Projection)
  | union (values : List AliasValueExpr)

structure AliasWriteEffect where
  target : AliasValueExpr
  value : AliasValueExpr

/-- What a caller needs of a summary. -/
structure AliasSummary where
  returnAlias : AliasValueExpr
  escaped : List AliasValueExpr
  writes : List AliasWriteEffect
  captures : Map SymbolId AliasValueExpr
  incomplete : Bool

structure ContextualAliasUnit where
  semantic : HirSemanticUnit
  calls : List HirExprId
  deriving DecidableEq

/-- The captures that the analysis has recorded. -/
structure CaptureTables where
  captures : Map ContextualAliasUnit (Map SymbolId AliasValueExpr)
  semanticCaptures : Map HirSemanticUnit (Map SymbolId AliasValueExpr)

structure AliasDomain where
  unit : Option HirSemanticUnit
  symbols : Map SymbolId AliasValue
  exprs : Map HirExprId AliasValue
  heap : Map Place AliasValue
  escaped : Finset Place
  returnAlias : AliasValue
  lastExprAlias : AliasValue
  incomplete : Bool
  config : AliasPrecisionConfig

namespace AliasDomain

def markIncomplete (state : AliasDomain) : AliasDomain := { state with incomplete := true }

def exprAlias (state : AliasDomain) (expr : HirExprId) : AliasValue :=
  (state.exprs.get expr).getD .bottom

def setExprAlias (state : AliasDomain) (expr : HirExprId) (value : AliasValue) : AliasDomain :=
  { state with lastExprAlias := value, exprs := state.exprs.insert expr value }

def assignPlace (state : AliasDomain) (place : Place) (value : AliasValue) : AliasDomain :=
  { state with heap := state.heap.insert place value }

def markEscaped (state : AliasDomain) (value : AliasValue) : AliasDomain :=
  match value.may with
  | .known places => { state with escaped := state.escaped ∪ places }
  | .unknown => state.markIncomplete
  | .bottom => state

end AliasDomain

def callArgs (exprs : HirExprId → Option HirExpr) (call : HirExprId) : List HirExprId :=
  match exprs call with
  | some (.call _ args) => args.map (·.expr)
  | some (.methodCall _ args) => args.map (·.expr)
  | some (.specMethodCall _ args) => args.map (·.expr)
  | _ => []

def capturesForCall (tables : CaptureTables) (callee : Option ContextualAliasUnit)
    (summary : AliasSummary) : Map SymbolId AliasValueExpr :=
  match callee with
  | some callee =>
    ((tables.captures.get callee).or (tables.semanticCaptures.get callee.semantic)).getD
      summary.captures
  | none => summary.captures

section
variable (config : AliasPrecisionConfig) (le : AliasVar → AliasVar → Bool)

def solveCopyUpdate (dst : AliasVar) (current : Option AliasValue) (incoming : AliasValue)
    (strongUpdate : Bool) : Option (AliasValue × Bool) := do
  let strongUpdate := strongUpdate && config.flowSensitivity == .flowSensitive
  let seeds := if !strongUpdate || config.updatePolicy == .alwaysWeak then
    current.toList.map (dst, ·) else []
  let solution ← AliasConstraintFrame.solve config le (seeds ++ [(.synthetic 0, incoming)])
    [.copy dst (.synthetic 0)]
  return (solution.value dst, solution.incomplete)

def solveProjectionValue (base : AliasValue) (projection : Projection) :
    Option (AliasValue × Bool) := do
  let solution ← AliasConstraintFrame.solve config le [(.synthetic 0, base)]
    [.project (.synthetic 1) (.synthetic 0) projection]
  return (solution.value (.synthetic 1), solution.incomplete)

/-- `HirExprId(u32::MAX)` -/
def noCall : HirExprId := 2 ^ 32 - 1

section Instantiate
variable (currentUnit : Option HirSemanticUnit) (captures : Map SymbolId AliasValueExpr)

mutual

/-- The depth bounds the captures of captures, which may be endless. -/
def instantiateValueAtCall (call : HirExprId) (actuals : List AliasValue) :
    ℕ → AliasValueExpr → Option AliasValue
  | 0, _ => none
  | n + 1, value =>
    match value with
    | .bottom => some .bottom
    | .unknown => some .unknown
    | .formalParam index => some (actuals[index]?.getD .unknown)
    | .captured symbol =>
      match captures.get symbol with
      | some value => instantiateCapturedValue n value
      | none => some .unknown
    | .allocation unit expr =>
      if config.allocationSensitivity = .perCallSite ∧ call ≠ noCall then
        some (.fromTarget (.allocation currentUnit call))
      else some (.fromTarget (.allocation unit expr))
    | .allocationKind unit kind => some (.fromTarget (.allocationKind unit kind))
    | .topLevel item => some (.fromTarget (.topLevel item))
    | .resourceHandle symbol => some (.fromTarget (.resourceHandle symbol))
    | .memoryPlace path => some (.fromTarget (.memoryPlace path))
    | .project base projection => do
      let base ← instantiateValueAtCall call actuals n base
      let (value, _) ← solveProjectionValue config le base projection
      return value
    | .union values => do
      let values ← values.mapM (instantiateValueAtCall call actuals n)
      return values.foldl (·.joinWithLimit · config.maxAliasSetSize) .bottom

def instantiateCapturedValue : ℕ → AliasValueExpr → Option AliasValue
  | 0, _ => none
  | n + 1, value =>
    match value with
    | .formalParam index =>
      some ((currentUnit.map fun unit => .fromTarget (.param unit index)).getD .unknown)
    | .captured symbol =>
      match captures.get symbol with
      | some value => instantiateCapturedValue n value
      | none => some .unknown
    | .project base projection => do
      let base ← instantiateCapturedValue n base
      let (value, _) ← solveProjectionValue config le base projection
      return value
    | .union values => do
      let values ← values.mapM (instantiateCapturedValue n)
      return values.foldl (·.joinWithLimit · config.maxAliasSetSize) .bottom
    | other => instantiateValueAtCall noCall [] n other

end

end Instantiate
end

variable (le : AliasVar → AliasVar → Bool)

def assignPlaceWithConstraints (state : AliasDomain) (place : Place) (value : AliasValue)
    (strongUpdate : Bool) : Option AliasDomain := do
  let (solved, incomplete) ← solveCopyUpdate state.config le (.place place) (state.heap.get place)
    value strongUpdate
  let state := if incomplete then state.markIncomplete else state
  return state.assignPlace place solved

section
variable (instantiate : AliasValueExpr → Option AliasValue)

def applyEscape (state : AliasDomain) (escaped : AliasValueExpr) : Option AliasDomain := do
  return state.markEscaped (← instantiate escaped)

def applyWrite (state : AliasDomain) (write : AliasWriteEffect) : Option AliasDomain := do
  let target ← instantiate write.target
  let value ← instantiate write.value
  match target.must with
  | some place => assignPlaceWithConstraints le state place value false
  | none => return if target.isUnknown then state.markIncomplete else state

end

/-- What the summary's expressions stand for at the call. -/
def instantiateAtCall (exprs : HirExprId → Option HirExpr) (tables : CaptureTables) (depth : ℕ)
    (call : HirExprId) (callee : Option ContextualAliasUnit) (summary : AliasSummary)
    (state : AliasDomain) : AliasValueExpr → Option AliasValue :=
  instantiateValueAtCall state.config le state.unit (capturesForCall tables callee summary) call
    ((callArgs exprs call).map state.exprAlias) depth

def applySummaryToCall (exprs : HirExprId → Option HirExpr) (tables : CaptureTables) (depth : ℕ)
    (call : HirExprId) (callee : Option ContextualAliasUnit) (summary : AliasSummary)
    (state : AliasDomain) : Option AliasDomain := do
  let instantiate := instantiateAtCall le exprs tables depth call callee summary state
  let value ← instantiate summary.returnAlias
  let state := state.setExprAlias call value
  let state ← summary.escaped.foldlM (applyEscape instantiate) state
  let state ← summary.writes.foldlM (applyWrite le instantiate) state
  return if summary.incomplete then state.markIncomplete else state

end EtasFrontend.Alias
