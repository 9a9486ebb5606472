import EtasFrontend.Hir.Program

/-! The index of a HIR tree: every node is visited from the modules, and its owner is recorded. -/
namespace EtasFrontend.Hir
open Lib

inductive HirBodyKind where
  | flow
  | tool
  | agent
  | topLevelLet
  | implFlow (index : ℕ)
  | annotationArg ( annotation arg : ℕ)
  | lambda (expr : HirExprId)
  | handlerArm (arm : HirHandlerArmId)
  | matchArm (expr : HirExprId) (arm : ℕ)
  | stageLimit (expr : HirExprId) (stage limit : ℕ)
  deriving DecidableEq

structure HirBodyRef where
  item : HirItemId
  kind : HirBodyKind
  deriving DecidableEq

inductive HirOwner where
  | module (module : HirModuleId)
  | item (item : HirItemId)
  | body (body : HirBodyRef)
  | block (block : HirBlockId)
  | stmt (stmt : HirStmtId)
  | expr (expr : HirExprId)
  | handlerArm (arm : HirHandlerArmId)
  | pattern (pat : HirPatId)
  deriving DecidableEq

inductive HirTreeChild where
  | expr (expr : HirExprId)
  | block (block : HirBlockId)
  | stmt (stmt : HirStmtId)
  | handlerArm (arm : HirHandlerArmId)
  | pattern (pat : HirPatId)
  deriving DecidableEq

inductive HirTreeNodeKind where
  | module | item | body | block | statement | expr | handlerArm | pattern | scope

inductive HirTreeIndexDiagnostic where
  | missingNode (kind : HirTreeNodeKind) (id : ℕ) (owner : Option HirOwner)
  | duplicateOwner (kind : HirTreeNodeKind) (id : ℕ) (previous next : HirOwner)
  | orphanNode (kind : HirTreeNodeKind) (id : ℕ)
  | missingScope (scope : ScopeId) (owner : Option HirOwner)

structure HirTreeIndex where
  itemChildren : Map HirItemId (List HirItemId)
  moduleItems : Map HirModuleId (List HirItemId)
  itemModule : Map HirItemId HirModuleId
  itemBody : Map HirItemId HirBodyRef
  itemBodies : Map HirItemId (List HirBodyRef)
  bodyOwner : Map HirBodyRef HirOwner
  ownedBodies : Map HirOwner (List HirBodyRef)
  bodyBlocks : Map HirBodyRef (List HirBlockId)
  bodyExprs : Map HirBodyRef (List HirExprId)
  blockOwner : Map HirBlockId HirOwner
  stmtBlock : Map HirStmtId HirBlockId
  stmtItem : Map HirStmtId HirItemId
  exprOwner : Map HirExprId HirOwner
  exprItem : Map HirExprId HirItemId
  handlerArmOwner : Map HirHandlerArmId HirOwner
  patOwner : Map HirPatId HirOwner
  scopeChildren : Map ScopeId (List ScopeId)
  scopeByOwner : Map HirOwner (List ScopeId)

def HirTreeIndex.empty : HirTreeIndex :=
  ⟨∅, ∅, ∅, ∅, ∅, ∅, ∅, ∅, ∅, ∅, ∅, ∅, ∅, ∅, ∅, ∅, ∅, ∅⟩

def HirArg.expr : HirArg → HirExprId
  | .positional value => value
  | .named _ value => value

def HirItem.scope : HirItem → Option ScopeId
  | .typeAlias scope | .type scope | .enum scope | .spec scope | .impl _ scope | .effect scope
  | .tool _ scope | .agent _ scope | .protocol scope => some scope
  | .flow decl => some decl.scope
  | .topLevelLet _ | .error => none

def HirStmt.children : HirStmt → List HirTreeChild
  | .let pat value | .var pat value => [.pattern pat, .expr value]
  | .assign target value => [.expr target, .expr value]
  | .if e | .match e => [.expr e]
  | .for pat iter limits body => .pattern pat :: .expr iter :: limits.map .expr ++ [.block body]
  | .while cond limits body => .expr cond :: limits.map .expr ++ [.block body]
  | .retry limits body => limits.map .expr ++ [.block body]
  | .resume value | .return value => value.toList.map .expr
  | .finish value => [.expr value]
  | .expr e => [.expr e]
  | .break | .continue | .error => []

def HirElseBranch.child : HirElseBranch → HirTreeChild
  | .if e => .expr e
  | .block b => .block b

/-- The children of an expression that it does not keep in a body of its own. -/
def HirExpr.children : HirExpr → List HirTreeChild
  | .literal _ | .path _ | .reflect _ | .emptyRecordOrMap | .emptySequence | .error => []
  | .record _ fields => fields.filterMap fun
    | .shorthand _ _ => none
    | .named _ value => some (.expr value)
  | .tuple elems | .array elems | .list elems | .set elems => elems.map .expr
  | .listCons head tail => [.expr head, .expr tail]
  | .map entries => entries.flatMap fun entry => [.expr entry.key, .expr entry.value]
  | .range start stop => [.expr start, .expr stop]
  | .call callee args => .expr callee :: args.map fun arg => .expr arg.expr
  | .methodCall receiver _ args | .specMethodCall receiver _ _ args =>
    .expr receiver :: args.map fun arg => .expr arg.expr
  | .perform _ args | .infer _ args => args.map fun arg => .expr arg.expr
  | .handler handlers => handlers.map .handlerArm
  | .handle body target => [.expr body, .expr target]
  | .stageCompose stages => stages.map fun stage => .expr stage.expr
  | .pipeline input stages => .expr input :: stages.map fun stage => .expr stage.expr
  | .field base _ => [.expr base]
  | .try e | .unary _ e => [.expr e]
  | .index base position => [.expr base, .expr position]
  | .slice base start stop => [.expr base, .expr start, .expr stop]
  | .binary _ lhs rhs => [.expr lhs, .expr rhs]
  | .if cond thenBlock elseBranch =>
    .expr cond :: .block thenBlock :: elseBranch.toList.map HirElseBranch.child
  | .match scrutinee arms => .expr scrutinee :: arms.map fun arm => .pattern arm.pat
  | .lambda _ _ _ => []
  | .block b => [.block b]

def HirPat.children : HirPat → List HirTreeChild
  | .tuple elems => elems.map .pattern
  | .record _ fields => fields.filterMap fun field => field.pat.map .pattern
  | .variant _ args => args.map .pattern
  | .binding _ | .wildcard | .literal _ | .error => []

structure HirTreeIndexBuilder where
  index : HirTreeIndex
  diagnostics : List HirTreeIndexDiagnostic

/-- Why a run has no result. -/
inductive Halt where
  | outOfFuel
  | panic
  deriving DecidableEq

namespace HirTreeIndexBuilder

/-- `entry(key).or_default().push(value)`. -/
def pushEntry {κ ν : Type} [DecidableEq κ] (m : Map κ (List ν)) (key : κ) (value : ν) :
    Map κ (List ν) :=
  m.insert key ((m.get key).getD [] ++ [value])

variable (program : HirProgram) (builder : HirTreeIndexBuilder)

def report (diagnostic : HirTreeIndexDiagnostic) : HirTreeIndexBuilder :=
  { builder with diagnostics := builder.diagnostics ++ [diagnostic] }

def missing (kind : HirTreeNodeKind) (id : ℕ) (owner : Option HirOwner) : HirTreeIndexBuilder :=
  builder.report (.missingNode kind id owner)

def insertScopeOwner (owner : HirOwner) (scope : ScopeId) : HirTreeIndexBuilder :=
  if program.scopes[scope]?.isNone then builder.report (.missingScope scope (some owner))
  else
    let scopes := (builder.index.scopeByOwner.get owner).getD []
    let scopes := if scope ∈ scopes then scopes else scopes ++ [scope]
    { builder with index := { builder.index with
      scopeByOwner := builder.index.scopeByOwner.insert owner scopes } }

/-- What an owner that was replaced is compared with: only the latest one. -/
def noteOwner (kind : HirTreeNodeKind) (id : ℕ) (previous : Option HirOwner) (owner : HirOwner) :
    HirTreeIndexBuilder × Bool :=
  match previous with
  | none => (builder, true)
  | some previous =>
    if previous = owner then (builder, true)
    else (builder.report (.duplicateOwner kind id previous owner), false)

def insertItemModule (item : HirItemId) (module : HirModuleId) : HirTreeIndexBuilder × Bool :=
  if program.items[item]?.isNone then (builder.missing .item item (some (.module module)), false)
  else
    let previous := builder.index.itemModule.get item
    noteOwner { builder with index := { builder.index with
        itemModule := builder.index.itemModule.insert item module } }
      .item item (previous.map .module) (.module module)

def insertBlockOwner (block : HirBlockId) (owner : HirOwner) : HirTreeIndexBuilder × Bool :=
  let previous := builder.index.blockOwner.get block
  noteOwner { builder with index := { builder.index with
      blockOwner := builder.index.blockOwner.insert block owner } }
    .block block previous owner

def insertStmtBlock (stmt : HirStmtId) (block : HirBlockId) : HirTreeIndexBuilder × Bool :=
  let previous := builder.index.stmtBlock.get stmt
  noteOwner { builder with index := { builder.index with
      stmtBlock := builder.index.stmtBlock.insert stmt block } }
    .statement stmt (previous.map .block) (.block block)

def insertExprOwner (expr : HirExprId) (owner : HirOwner) : HirTreeIndexBuilder × Bool :=
  if program.exprs[expr]?.isNone then (builder.missing .expr expr (some owner), false)
  else
    let previous := builder.index.exprOwner.get expr
    noteOwner { builder with index := { builder.index with
        exprOwner := builder.index.exprOwner.insert expr owner } }
      .expr expr previous owner

def insertHandlerArmOwner (arm : HirHandlerArmId) (owner : HirOwner) : HirTreeIndexBuilder × Bool :=
  if program.handlerArms[arm]?.isNone then (builder.missing .handlerArm arm (some owner), false)
  else
    let previous := builder.index.handlerArmOwner.get arm
    noteOwner { builder with index := { builder.index with
        handlerArmOwner := builder.index.handlerArmOwner.insert arm owner } }
      .handlerArm arm previous owner

def insertPatOwner (pat : HirPatId) (owner : HirOwner) : HirTreeIndexBuilder × Bool :=
  let previous := builder.index.patOwner.get pat
  noteOwner { builder with index := { builder.index with
      patOwner := builder.index.patOwner.insert pat owner } }
    .pattern pat previous owner

/-- A second body with the same reference is reported, whoever owns it. -/
def insertBody (item : HirItemId) (body : HirBodyRef) (owner : HirOwner)
    (scope : Option ScopeId) : HirTreeIndexBuilder :=
  let previous := builder.index.bodyOwner.get body
  let recorded : HirTreeIndexBuilder := { builder with index := { builder.index with
    itemBody := builder.index.itemBody.orInsert item body
    itemBodies := pushEntry builder.index.itemBodies item body
    bodyOwner := builder.index.bodyOwner.insert body owner } }
  match previous with
  | some previous => recorded.report (.duplicateOwner .body body.item previous owner)
  | none =>
    let owned : HirTreeIndexBuilder := { recorded with index := { recorded.index with
      ownedBodies := pushEntry recorded.index.ownedBodies owner body } }
    match scope with
    | some scope => owned.insertScopeOwner program (.body body) scope
    | none => owned

def pushBodyBlock (body : HirBodyRef) (block : HirBlockId) : HirTreeIndexBuilder :=
  { builder with index := { builder.index with
    bodyBlocks := pushEntry builder.index.bodyBlocks body block } }

def pushBodyExpr (body : HirBodyRef) (expr : HirExprId) : HirTreeIndexBuilder :=
  { builder with index := { builder.index with
    bodyExprs := pushEntry builder.index.bodyExprs body expr } }

/-- The scope of an owner in the index as it stands. The owners recorded so far may form a cycle. -/
def scopeForIndexOwner : ℕ → HirOwner → Except Halt (Option ScopeId)
  | 0, _ => .error .outOfFuel
  | fuel + 1, owner =>
    match (builder.index.scopeByOwner.get owner).bind List.head? with
    | some scope => .ok (some scope)
    | none =>
      match owner with
      | .module module => .ok (program.modulesArena[module]?.map HirModule.scope)
      | .item item => .ok (program.items[item]?.bind HirItem.scope)
      | .body body => .ok ((builder.index.scopeByOwner.get (.body body)).bind List.head?)
      | .block block => .ok (program.blocks[block]?.map HirBlock.scope)
      | .stmt stmt =>
        match builder.index.stmtBlock.get stmt with
        | some block => scopeForIndexOwner fuel (.block block)
        | none => .ok none
      | .expr expr =>
        match builder.index.exprOwner.get expr with
        | some owner => scopeForIndexOwner fuel owner
        | none => .ok none
      | .handlerArm arm => .ok (program.handlerArms[arm]?.map HirHandlerArm.scope)
      | .pattern pat =>
        match builder.index.patOwner.get pat with
        | some owner => scopeForIndexOwner fuel owner
        | none => .ok none

/-! The calls of the indexing functions, in the order in which they are made. Expressions wait on
the stack of the innermost `index_expr`, so they come after the calls it makes directly. -/

/-- A call that is still to be made. `body` and `stageLimit` enter a body that an expression or a
handler arm keeps apart; `bodyBlock` notes its block afterwards. -/
inductive IndexCall where
  | block (block : HirBlockId) (owner : HirOwner)
  | stmt (stmt : HirStmtId) (block : HirBlockId)
  | expr (expr : HirExprId) (owner : HirOwner)
  | pat (pat : HirPatId) (owner : HirOwner)
  | handlerArm (arm : HirHandlerArmId) (owner : HirOwner)
  | body (body : HirBodyRef) (owner : HirOwner) (scope : ScopeId) (target : HirBodyTarget)
  | stageLimit (body : HirBodyRef) (expr : HirExprId) (exprOwner : HirOwner) (limit : HirExprId)
  | bodyBlock (body : HirBodyRef) (block : HirBlockId)

def indexBlock (block : HirBlockId) (owner : HirOwner) : HirTreeIndexBuilder × List IndexCall :=
  match builder.insertBlockOwner block owner with
  | (builder, false) => (builder, [])
  | (builder, true) =>
    match program.blocks[block]? with
    | none => (builder.missing .block block (some owner), [])
    | some data => (builder.insertScopeOwner program (.block block) data.scope,
        data.stmts.map (.stmt · block) ++
          data.finalExpr.toList.map (.expr · (.block block)))

/-- A child of a statement or of a pattern. -/
def childCall (owner : HirOwner) : HirTreeChild → Option IndexCall
  | .expr expr => some (.expr expr owner)
  | .block block => some (.block block owner)
  | .pattern pat => some (.pat pat owner)
  | .handlerArm arm => some (.handlerArm arm owner)
  | .stmt _ => none

def indexStmt (item : HirItemId) (stmt : HirStmtId) (block : HirBlockId) :
    HirTreeIndexBuilder × List IndexCall :=
  match builder.insertStmtBlock stmt block with
  | (builder, false) => (builder, [])
  | (builder, true) =>
    match program.stmts[stmt]? with
    | none => (builder.missing .statement stmt none, [])
    | some data => ({ builder with index := { builder.index with
          stmtItem := builder.index.stmtItem.insert stmt item } },
        data.children.filterMap (childCall (.stmt stmt)))

def indexPat (pat : HirPatId) (owner : HirOwner) : HirTreeIndexBuilder × List IndexCall :=
  match builder.insertPatOwner pat owner with
  | (builder, false) => (builder, [])
  | (builder, true) =>
    match program.pats[pat]? with
    | none => (builder.missing .pattern pat (some owner), [])
    | some data => (builder, data.children.filterMap (childCall (.pattern pat)))

def indexHandlerArm (item : HirItemId) (arm : HirHandlerArmId) (owner : HirOwner) :
    HirTreeIndexBuilder × List IndexCall :=
  match builder.insertHandlerArmOwner program arm owner with
  | (builder, false) => (builder.missing .handlerArm arm (some owner), [])
  | (builder, true) =>
    match program.handlerArms[arm]? with
    | none => (builder.missing .handlerArm arm (some owner), [])
    | some data => (builder.insertScopeOwner program (.handlerArm arm) data.scope,
        data.patterns.map (.pat · (.handlerArm arm)) ++
          data.continuation.toList.map (.pat · (.handlerArm arm)) ++
          [.body ⟨item, .handlerArm arm⟩ (.handlerArm arm) data.scope (.block data.body)])

/-- The bodies of an expression, in order, each with the expression that it puts on the stack. -/
def exprBodies (item : HirItemId) (expr : HirExprId) (owner : HirOwner) :
    HirExpr → List (IndexCall × Option IndexCall)
  | .lambda _ body scope =>
    [(.body ⟨item, .lambda expr⟩ (.expr expr) scope body, targetExpr ⟨item, .lambda expr⟩ body)]
  | .match _ arms => arms.zipIdx.map fun (arm, position) =>
    (.body ⟨item, .matchArm expr position⟩ (.expr expr) arm.scope arm.body,
      targetExpr ⟨item, .matchArm expr position⟩ arm.body)
  | .stageCompose stages | .pipeline _ stages => stages.zipIdx.flatMap fun (stage, position) =>
    stage.limits.zipIdx.map fun (limit, number) =>
      (.stageLimit ⟨item, .stageLimit expr position number⟩ expr owner limit,
        some (.expr limit (.body ⟨item, .stageLimit expr position number⟩)))
  | _ => []
where
  targetExpr (body : HirBodyRef) : HirBodyTarget → Option IndexCall
    | .expr target => some (.expr target (.body body))
    | .block _ => none

def IndexCall.isExpr : IndexCall → Bool
  | .expr _ _ => true
  | _ => false

def indexExpr (item : HirItemId) (expr : HirExprId) (owner : HirOwner) :
    HirTreeIndexBuilder × List IndexCall :=
  match builder.insertExprOwner program expr owner with
  | (builder, false) => (builder, [])
  | (builder, true) =>
    let builder : HirTreeIndexBuilder := { builder with index := { builder.index with
      exprItem := builder.index.exprItem.insert expr item } }
    match program.exprs[expr]? with
    | none => (builder.missing .expr expr none, [])
    | some data =>
      let bodies := exprBodies item expr owner data
      let children := data.children.filterMap (childCall (.expr expr))
      (builder, bodies.map Prod.fst ++ (children.filter fun call => !call.isExpr).reverse ++
        children.filter IndexCall.isExpr ++ (bodies.filterMap Prod.snd).reverse)

def enterBody (item : HirItemId) (body : HirBodyRef) (owner : HirOwner) (scope : Option ScopeId)
    (target : HirBodyTarget) : HirTreeIndexBuilder × List IndexCall :=
  let builder := builder.insertBody program item body owner scope
  match target with
  | .expr expr => (builder.pushBodyExpr body expr, [])
  | .block block => (builder, [.block block (.body body), .bodyBlock body block])

/-- One call, with the calls that it makes. -/
def perform (item : HirItemId) (fuel : ℕ) :
    IndexCall → Except Halt (HirTreeIndexBuilder × List IndexCall)
  | .block block owner => .ok (builder.indexBlock program block owner)
  | .stmt stmt block => .ok (builder.indexStmt program item stmt block)
  | .expr expr owner => .ok (builder.indexExpr program item expr owner)
  | .pat pat owner => .ok (builder.indexPat program pat owner)
  | .handlerArm arm owner => .ok (builder.indexHandlerArm program item arm owner)
  | .body body owner scope target =>
    .ok (builder.enterBody program item body owner (some scope) target)
  | .stageLimit body expr exprOwner limit => do
    let scope ← builder.scopeForIndexOwner program fuel exprOwner
    .ok (builder.enterBody program item body (.expr expr) scope (.expr limit))
  | .bodyBlock body block => .ok (builder.pushBodyBlock body block, [])

def run (item : HirItemId) : ℕ → List IndexCall → HirTreeIndexBuilder →
    Except Halt HirTreeIndexBuilder
  | _, [], builder => .ok builder
  | 0, _ :: _, _ => .error .outOfFuel
  | fuel + 1, call :: calls, builder => do
    let (builder, made) ← builder.perform program item fuel call
    run item fuel (made ++ calls) builder

def indexFlowBody (fuel : ℕ) (flowBody : HirFlowBody) (body : HirBodyRef) (item : HirItemId) :
    Except Halt HirTreeIndexBuilder := do
  let builder ← run program item fuel [.block flowBody.blockId (.body body)] builder
  .ok (builder.pushBodyBlock body flowBody.blockId)

def indexRootExpr (fuel : ℕ) (expr : HirExprId) (body : HirBodyRef) (item : HirItemId) :
    Except Halt HirTreeIndexBuilder := do
  let builder ← run program item fuel [.expr expr (.body body)] builder
  .ok (builder.pushBodyExpr body expr)

def indexItemAnnotations (fuel : ℕ) (item : HirItemId) (scope : Option ScopeId) :
    Except Halt HirTreeIndexBuilder :=
  let annotations := (program.itemAnnotations.get item).getD []
  let args := annotations.zipIdx.flatMap fun ( annotation, position) =>
    annotation.args.zipIdx.map fun (value, number) => (position, number, value)
  args.foldlM (fun builder (position, number, value) =>
    let body : HirBodyRef := ⟨item, .annotationArg position number⟩
    (builder.insertBody program item body (.item item) scope).indexRootExpr program fuel value
      body item) builder

def indexCallable (fuel : ℕ) (item : HirItemId) (position : ℕ) (callable : HirItemId) :
    Except Halt HirTreeIndexBuilder :=
  match program.items[callable]? with
  | none => .error .panic
  | some (.flow decl) => do
    let builder : HirTreeIndexBuilder := { builder with index := { builder.index with
      itemChildren := pushEntry builder.index.itemChildren item callable } }
    match builder.index.itemModule.get item with
    | none => .error .panic
    | some module =>
      let builder := (builder.insertItemModule program callable module).1
      let builder := builder.insertScopeOwner program (.item callable) decl.scope
      let body : HirBodyRef := ⟨item, .implFlow position⟩
      let builder := builder.insertBody program callable body (.item callable) (some decl.scope)
      let builder ← builder.indexFlowBody program fuel decl.body body callable
      builder.indexItemAnnotations program fuel callable (some decl.scope)
  | some _ => .ok (builder.missing .body callable (some (.item item)))

def indexImplItem (fuel : ℕ) (item : HirItemId) (position : ℕ) :
    HirImplItem → Except Halt HirTreeIndexBuilder
  | .callable callable => builder.indexCallable program fuel item position callable
  | .flow decl =>
    let body : HirBodyRef := ⟨item, .implFlow position⟩
    (builder.insertBody program item body (.item item) (some decl.scope)).indexFlowBody program
      fuel decl.body body item
  | .action | .error => .ok builder

def indexItemBody (fuel : ℕ) (item : HirItemId) :
    HirItem → Except Halt HirTreeIndexBuilder
  | .flow decl =>
    (builder.insertBody program item ⟨item, .flow⟩ (.item item) (some decl.scope)).indexFlowBody
      program fuel decl.body ⟨item, .flow⟩ item
  | .tool (.source body) scope =>
    (builder.insertBody program item ⟨item, .tool⟩ (.item item) (some scope)).indexFlowBody
      program fuel body ⟨item, .tool⟩ item
  | .agent (.source block) scope =>
    (builder.insertBody program item ⟨item, .agent⟩ (.item item) (some scope)).indexFlowBody
      program fuel (.block block) ⟨item, .agent⟩ item
  | .topLevelLet value =>
    (builder.insertBody program item ⟨item, .topLevelLet⟩ (.item item) none).indexRootExpr
      program fuel value ⟨item, .topLevelLet⟩ item
  | .impl items _ => items.zipIdx.foldlM (fun builder (implItem, position) =>
      builder.indexImplItem program fuel item position implItem) builder
  | _ => .ok builder

def indexItem (fuel : ℕ) (item : HirItemId) : Except Halt HirTreeIndexBuilder :=
  match program.items[item]? with
  | none => .ok (builder.missing .item item none)
  | some data => do
    let builder := match data.scope with
      | some scope => builder.insertScopeOwner program (.item item) scope
      | none => builder
    let builder ← builder.indexItemBody program fuel item data
    builder.indexItemAnnotations program fuel item data.scope

def indexModuleItem (fuel : ℕ) (module : HirModuleId) (item : HirItemId) :
    Except Halt HirTreeIndexBuilder :=
  match builder.insertItemModule program item module with
  | (builder, true) => builder.indexItem program fuel item
  | (builder, false) => .ok builder

def indexModule (fuel : ℕ) (module : HirModuleId) : Except Halt HirTreeIndexBuilder :=
  match program.modulesArena[module]? with
  | none => .ok (builder.missing .module module none)
  | some data =>
    let builder := builder.insertScopeOwner program (.module module) data.scope
    let builder : HirTreeIndexBuilder := { builder with index := { builder.index with
      moduleItems := builder.index.moduleItems.insert module data.items } }
    data.items.foldlM (fun builder item => builder.indexModuleItem program fuel module item)
      builder

def scopeOwner : ScopeOwner → HirOwner
  | .module module => .module module
  | .item item => .item item
  | .block block => .block block
  | .lambda expr | .handler expr | .matchArm expr => .expr expr

def indexScope (id : ScopeId) (scope : Scope) : HirTreeIndexBuilder :=
  match scope.parent with
  | none => builder.insertScopeOwner program (scopeOwner scope.owner) id
  | some parent =>
    if program.scopes[parent]?.isNone then builder.report (.missingScope parent none)
    else
      let builder : HirTreeIndexBuilder := { builder with index := { builder.index with
        scopeChildren := pushEntry builder.index.scopeChildren parent id } }
      builder.insertScopeOwner program (scopeOwner scope.owner) id

def indexScopes : HirTreeIndexBuilder :=
  program.scopes.zipIdx.foldl (fun builder (scope, id) => builder.indexScope program id scope)
    builder

def build (fuel : ℕ) : Except Halt HirTreeIndexBuilder :=
  program.modules.foldlM (fun builder module => builder.indexModule program fuel module)
    (builder.indexScopes program)

/-- The nodes of an arena that were not visited. -/
def orphans (kind : HirTreeNodeKind) (size : ℕ) (visited optimizedOut : ℕ → Bool) :
    List HirTreeIndexDiagnostic :=
  ((List.range size).filter fun id => !visited id && !optimizedOut id).map (.orphanNode kind)

def validateOrphans : HirTreeIndexBuilder :=
  let index := builder.index
  let found :=
    orphans .module program.modulesArena.length program.modules.contains (fun _ => false) ++
    orphans .item program.items.length (fun id => (index.itemModule.get id).isSome)
      (fun _ => false) ++
    orphans .block program.blocks.length (fun id => (index.blockOwner.get id).isSome)
      program.optimizedOutBlocks.contains ++
    orphans .statement program.stmts.length (fun id => (index.stmtBlock.get id).isSome)
      program.optimizedOutStatements.contains ++
    orphans .expr program.exprs.length (fun id => (index.exprOwner.get id).isSome)
      program.optimizedOutExprs.contains ++
    orphans .handlerArm program.handlerArms.length
      (fun id => (index.handlerArmOwner.get id).isSome) (fun _ => false) ++
    orphans .pattern program.pats.length (fun id => (index.patOwner.get id).isSome)
      program.optimizedOutPatterns.contains
  { builder with diagnostics := builder.diagnostics ++ found }

end HirTreeIndexBuilder

def HirTreeIndex.tryBuild (program : HirProgram) (fuel : ℕ) :
    Except Halt (Except (List HirTreeIndexDiagnostic) HirTreeIndex) := do
  let builder ← HirTreeIndexBuilder.build program ⟨.empty, []⟩ fuel
  let builder := builder.validateOrphans program
  if builder.diagnostics.isEmpty then .ok (.ok builder.index)
  else .ok (.error builder.diagnostics)

end EtasFrontend.Hir
