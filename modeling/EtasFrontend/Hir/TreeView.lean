import EtasFrontend.Hir.TreeIndex

/-! The scope around a node, found by following the recorded owners. -/
namespace EtasFrontend.Hir
open Lib

inductive HirNodeRef where
  | item (item : HirItemId)
  | expr (expr : HirExprId)
  | handlerArm (arm : HirHandlerArmId)
  | stmt (stmt : HirStmtId)
  | pat (pat : HirPatId)
  | block (block : HirBlockId)
  | type (type : ℕ)
  | symbol (symbol : SymbolId)

def bodyScope (program : HirProgram) (body : HirBodyRef) : Option ScopeId :=
  match program.items[body.item]? with
  | some (.flow decl) => if body.kind = .flow then some decl.scope else none
  | some (.tool _ scope) => if body.kind = .tool then some scope else none
  | some (.agent _ scope) => if body.kind = .agent then some scope else none
  | some (.impl _ scope) => some scope
  | _ => none

namespace HirTreeIndex
variable (program : HirProgram) (index : HirTreeIndex)

def exprScope (expr : HirExprId) : Option ScopeId :=
  match program.exprs[expr]? with
  | some (.lambda _ _ scope) => some scope
  | some (.handler _) => (index.scopeByOwner.get (.expr expr)).bind List.head?
  | _ => none

/-- The scope of an item, or that of its module. -/
def itemOrModuleScope (item : HirItemId) : Option ScopeId :=
  (program.items[item]?.bind HirItem.scope).or
    ((index.itemModule.get item).bind fun module => program.modulesArena[module]?.map HirModule.scope)

mutual

def enclosingScope : ℕ → HirNodeRef → Except Halt (Option ScopeId)
  | 0, _ => .error .outOfFuel
  | fuel + 1, node =>
    match node with
    | .item item => .ok (itemOrModuleScope program index item)
    | .expr expr =>
      match exprScope program index expr with
      | some scope => .ok (some scope)
      | none =>
        match index.exprOwner.get expr with
        | some owner => scopeForOwner fuel owner
        | none => .ok none
    | .handlerArm arm => .ok (program.handlerArms[arm]?.map HirHandlerArm.scope)
    | .stmt stmt =>
      .ok ((index.stmtBlock.get stmt).bind fun block => program.blocks[block]?.map HirBlock.scope)
    | .pat pat =>
      match index.patOwner.get pat with
      | some owner => scopeForOwner fuel owner
      | none => .ok none
    | .block block => .ok (program.blocks[block]?.map HirBlock.scope)
    | .type _ | .symbol _ => .ok none

def scopeForOwner : ℕ → HirOwner → Except Halt (Option ScopeId)
  | 0, _ => .error .outOfFuel
  | fuel + 1, owner =>
    match (index.scopeByOwner.get owner).bind List.head? with
    | some scope => .ok (some scope)
    | none =>
      match owner with
      | .module module => .ok (program.modulesArena[module]?.map HirModule.scope)
      | .item item => enclosingScope fuel (.item item)
      | .body body => .ok (bodyScope program body)
      | .block block => .ok (program.blocks[block]?.map HirBlock.scope)
      | .stmt stmt => enclosingScope fuel (.stmt stmt)
      | .expr expr => enclosingScope fuel (.expr expr)
      | .handlerArm arm => enclosingScope fuel (.handlerArm arm)
      | .pattern pat => enclosingScope fuel (.pat pat)

end

end HirTreeIndex
end EtasFrontend.Hir
