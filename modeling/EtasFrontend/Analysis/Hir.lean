import Mathlib.Data.Nat.Notation

/-! The part of a HIR program that the abstract interpreter walks. -/
namespace EtasFrontend.Analysis

abbrev HirExprId := ℕ
abbrev HirStmtId := ℕ
abbrev HirBlockId := ℕ
abbrev HirPatId := ℕ
abbrev HirHandlerArmId := ℕ

inductive HirArg where
  | positional (value : HirExprId)
  | named (name : String) (value : HirExprId)

def HirArg.expr : HirArg → HirExprId
  | .positional value => value
  | .named _ value => value

inductive HirFieldInit where
  | shorthand (name : String)
  | named (name : String) (value : HirExprId)

structure HirMapEntry where
  key : HirExprId
  value : HirExprId

structure HirStage where
  expr : HirExprId
  limits : List HirExprId

inductive HirElseBranch where
  | if (expr : HirExprId)
  | block (block : HirBlockId)

inductive HirMatchArmBody where
  | expr (expr : HirExprId)
  | block (block : HirBlockId)

structure HirMatchArm where
  pat : HirPatId
  body : HirMatchArmBody

/-- The bodies of lambdas and handlers are not walked from here. -/
inductive HirExpr where
  | literal
  | path
  | reflect
  | record (fields : List HirFieldInit)
  | emptyRecordOrMap
  | tuple (elems : List HirExprId)
  | array (elems : List HirExprId)
  | list (elems : List HirExprId)
  | listCons (head tail : HirExprId)
  | emptySequence
  | map (entries : List HirMapEntry)
  | set (elems : List HirExprId)
  | range (start stop : HirExprId)
  | call (callee : HirExprId) (args : List HirArg)
  | methodCall (receiver : HirExprId) (args : List HirArg)
  | specMethodCall (receiver : HirExprId) (args : List HirArg)
  | perform (args : List HirArg)
  | infer (args : List HirArg)
  | handler (handlers : List HirHandlerArmId)
  | handle (body handler : HirExprId)
  | stageCompose (stages : List HirStage)
  | pipeline (input : HirExprId) (stages : List HirStage)
  | field (base : HirExprId)
  | index (base index : HirExprId)
  | slice (base start stop : HirExprId)
  | try (expr : HirExprId)
  | unary (expr : HirExprId)
  | binary (lhs rhs : HirExprId)
  | if (cond : HirExprId) (thenBlock : HirBlockId) (elseBranch : Option HirElseBranch)
  | match (scrutinee : HirExprId) (arms : List HirMatchArm)
  | lambda
  | block (block : HirBlockId)
  | error

inductive HirStmt where
  | let (value : HirExprId)
  | var (value : HirExprId)
  | assign (target value : HirExprId)
  | if (expr : HirExprId)
  | match (expr : HirExprId)
  | for (pat : HirPatId) (iter : HirExprId) (limits : List HirExprId) (body : HirBlockId)
  | while (cond : HirExprId) (limits : List HirExprId) (body : HirBlockId)
  | retry (limits : List HirExprId) (body : HirBlockId)
  | resume (value : Option HirExprId)
  | finish (value : HirExprId)
  | return (value : Option HirExprId)
  | break
  | continue
  | expr (expr : HirExprId)
  | error

structure HirHandlerArm where
  body : HirBlockId

structure HirBlock where
  stmts : List HirStmtId
  finalExpr : Option HirExprId

inductive HirNode where
  | expr (expr : HirExprId)
  | stmt (stmt : HirStmtId)
  | block (block : HirBlockId)
  deriving DecidableEq

/-- The operands of a structural expression, in the order of evaluation. -/
def HirExpr.operands : HirExpr → Option (List HirExprId)
  | .listCons head tail => some [head, tail]
  | .range start stop => some [start, stop]
  | .binary lhs rhs => some [lhs, rhs]
  | .field base => some [base]
  | .unary base => some [base]
  | .index base position => some [base, position]
  | .slice base start stop => some [base, start, stop]
  | _ => none

def HirElseBranch.node : HirElseBranch → HirNode
  | .if e => .expr e
  | .block b => .block b

def HirMatchArmBody.node : HirMatchArmBody → HirNode
  | .expr e => .expr e
  | .block b => .block b

/-- What the interpreter evaluates for an expression. -/
def HirExpr.children : HirExpr → List HirNode
  | .record fields => fields.flatMap fun
    | .shorthand _ => []
    | .named _ value => [.expr value]
  | .tuple elems => elems.map .expr
  | .array elems => elems.map .expr
  | .list elems => elems.map .expr
  | .set elems => elems.map .expr
  | .listCons head tail => [.expr head, .expr tail]
  | .map entries => entries.flatMap fun entry => [.expr entry.key, .expr entry.value]
  | .range start stop => [.expr start, .expr stop]
  | .call callee args => .expr callee :: args.map fun arg => .expr arg.expr
  | .methodCall receiver args => .expr receiver :: args.map fun arg => .expr arg.expr
  | .specMethodCall receiver args => .expr receiver :: args.map fun arg => .expr arg.expr
  | .perform args => args.map fun arg => .expr arg.expr
  | .infer args => args.map fun arg => .expr arg.expr
  | .handle body target => [.expr body, .expr target]
  | .stageCompose stages => stages.flatMap fun stage => .expr stage.expr :: stage.limits.map .expr
  | .pipeline input stages =>
    .expr input :: stages.flatMap fun stage => .expr stage.expr :: stage.limits.map .expr
  | .field base => [.expr base]
  | .index base position => [.expr base, .expr position]
  | .slice base start stop => [.expr base, .expr start, .expr stop]
  | .try e => [.expr e]
  | .unary e => [.expr e]
  | .binary lhs rhs => [.expr lhs, .expr rhs]
  | .if cond thenBlock elseBranch =>
    .expr cond :: .block thenBlock :: elseBranch.toList.map HirElseBranch.node
  | .match scrutinee arms => .expr scrutinee :: arms.map fun arm => arm.body.node
  | .block b => [.block b]
  | _ => []

def HirStmt.children : HirStmt → List HirNode
  | .let value => [.expr value]
  | .var value => [.expr value]
  | .assign target value => [.expr target, .expr value]
  | .if e => [.expr e]
  | .match e => [.expr e]
  | .for _ iter limits body => .expr iter :: .block body :: limits.map .expr
  | .while cond limits body => .expr cond :: .block body :: limits.map .expr
  | .retry limits body => .block body :: limits.map .expr
  | .resume value => value.toList.map .expr
  | .finish value => [.expr value]
  | .return value => value.toList.map .expr
  | .expr e => [.expr e]
  | _ => []

def HirBlock.children (block : HirBlock) : List HirNode :=
  block.stmts.map .stmt ++ block.finalExpr.toList.map .expr

structure HirArenas where
  exprs : HirExprId → HirExpr
  stmts : HirStmtId → HirStmt
  blocks : HirBlockId → HirBlock
  handlerArms : HirHandlerArmId → HirHandlerArm

def HirArenas.children (arenas : HirArenas) : HirNode → List HirNode
  | .expr e => (arenas.exprs e).children
  | .stmt s => (arenas.stmts s).children
  | .block b => (arenas.blocks b).children

/-- The arenas hold a tree: the index of a program gives every node one owner. Lowering makes an
`else if` of an `if` only. -/
structure HirProgram extends HirArenas where
  acyclic : ∃ rank : HirNode → ℕ, ∀ node, ∀ child ∈ toHirArenas.children node,
    rank child < rank node
  elseIf : ∀ expr cond thenBlock next, exprs expr = .if cond thenBlock (some (.if next)) →
    ∃ cond thenBlock elseBranch, exprs next = .if cond thenBlock elseBranch

end EtasFrontend.Analysis
