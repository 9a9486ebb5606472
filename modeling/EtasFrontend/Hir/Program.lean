import EtasFrontend.Lib.Map

/-! The HIR of a program: arenas of nodes that name one another by their position. -/
namespace EtasFrontend.Hir
open Lib

abbrev HirModuleId := ℕ
abbrev HirItemId := ℕ
abbrev HirExprId := ℕ
abbrev HirHandlerArmId := ℕ
abbrev HirStmtId := ℕ
abbrev HirPatId := ℕ
abbrev HirBlockId := ℕ
abbrev ScopeId := ℕ
abbrev SymbolId := ℕ
abbrev SourceId := ℕ
abbrev HirTypeId := ℕ

structure Span where
  source : SourceId
  start : ℕ
  stop : ℕ
  deriving DecidableEq

/-! Expressions. -/

inductive PartialResolutionReason where
  | memberRequiresTypeChecking
  | moduleMemberMissing
  | unsupportedPathShape
  | packageResolverRequired
  deriving DecidableEq

structure PartialResolution where
  resolvedPrefix : Option SymbolId
  resolvedSegments : ℕ
  remaining : List String
  reason : PartialResolutionReason
  deriving DecidableEq

inductive ResolveResult where
  | resolved (symbol : SymbolId)
  | partiallyResolved (resolution : PartialResolution)
  | unresolved
  | ambiguous (symbols : List SymbolId)
  deriving DecidableEq

structure ResolvedPath where
  segments : List String
  resolution : ResolveResult
  span : Span
  deriving DecidableEq

/-- An action and the path of its effect. -/
structure ResolvedActionRef where
  effectPath : ResolvedPath
  action : String
  actionSymbol : ResolveResult
  span : Span
  deriving DecidableEq

structure HirTypeParamBound where
  path : ResolvedPath
  args : List HirTypeId
  span : Span
  deriving DecidableEq

inductive HirEffectArg where
  | type (ty : HirTypeId)
  | path (path : ResolvedPath)
  | patternBinding (name : String) (bounds : List HirTypeParamBound) (span : Span)
  | wildcard (span : Span)
  | string (value : String) (span : Span)
  | int (text : String) (span : Span)

structure HirEffectRef where
  path : ResolvedPath
  args : List HirEffectArg
  span : Span

structure HirEffectRow where
  effects : List HirEffectRef
  tail : Option ResolvedPath

structure HirFieldDecl where
  symbol : SymbolId
  ty : HirTypeId

/-- A handler without produced effects has them inferred. -/
inductive HirType where
  | existential (bounds : List HirTypeParamBound)
  | handler (handled : HirEffectRow) (produced : Option HirEffectRow) (result : Option HirTypeId)
  | arrow (effect : Option HirEffectRow) (input output : HirTypeId)
  | primitive
  | path (path : ResolvedPath) (args : List HirTypeId)
  | record (fields : List HirFieldDecl)
  | tuple (elems : List HirTypeId)
  | refined (base : HirTypeId) (predicate : HirExprId)
  | error

inductive HirReflectTarget where
  | path (path : ResolvedPath)
  | specMethod (receiver spec : ResolvedPath) (method : String)
  deriving DecidableEq

inductive HirLiteral where
  | bool (value : Bool)
  | int (text : String)
  | float (text : String)
  | string (value : String)
  | char (value : Char)
  deriving DecidableEq

inductive HirFieldInit where
  | shorthand (name : String) (resolution : ResolveResult)
  | named (name : String) (value : HirExprId)
  deriving DecidableEq

inductive HirArg where
  | positional (value : HirExprId)
  | named (name : String) (value : HirExprId)
  deriving DecidableEq

structure HirMapEntry where
  key : HirExprId
  value : HirExprId
  deriving DecidableEq

structure HirStage where
  expr : HirExprId
  limits : List HirExprId
  deriving DecidableEq

inductive HirElseBranch where
  | if (expr : HirExprId)
  | block (block : HirBlockId)
  deriving DecidableEq

/-- The body of a match arm or of a lambda. -/
inductive HirBodyTarget where
  | expr (expr : HirExprId)
  | block (block : HirBlockId)
  deriving DecidableEq

structure HirMatchArm where
  pat : HirPatId
  body : HirBodyTarget
  scope : ScopeId
  deriving DecidableEq

inductive HirUnaryOp where
  | not | neg
  deriving DecidableEq

inductive HirBinaryOp where
  | eqEq | bangEq | lt | ltEq | gt | gtEq | add | sub | mul | div | rem | andAnd | orOr
  deriving DecidableEq

inductive HirExpr where
  | literal (literal : HirLiteral)
  | path (path : ResolvedPath)
  | reflect (target : HirReflectTarget)
  | record (path : Option ResolvedPath) (fields : List HirFieldInit)
  | emptyRecordOrMap
  | tuple (elems : List HirExprId)
  | array (elems : List HirExprId)
  | list (elems : List HirExprId)
  | listCons (head tail : HirExprId)
  | emptySequence
  | map (entries : List HirMapEntry)
  | set (elems : List HirExprId)
  | range (start stop : HirExprId)
  | call (callee : HirExprId) (args : List HirArg)
  | methodCall (receiver : HirExprId) (method : String) (args : List HirArg)
  | specMethodCall (receiver : HirExprId) (specPath : ResolvedPath) (method : String)
    (args : List HirArg)
  | perform (action : ResolvedActionRef) (args : List HirArg)
  | infer (action : ResolvedActionRef) (args : List HirArg)
  | handler (handlers : List HirHandlerArmId)
  | handle (body handler : HirExprId)
  | stageCompose (stages : List HirStage)
  | pipeline (input : HirExprId) (stages : List HirStage)
  | field (base : HirExprId) (name : String)
  | index (base index : HirExprId)
  | slice (base start stop : HirExprId)
  | try (expr : HirExprId)
  | unary (op : HirUnaryOp) (expr : HirExprId)
  | binary (op : HirBinaryOp) (lhs rhs : HirExprId)
  | if (cond : HirExprId) (thenBlock : HirBlockId) (elseBranch : Option HirElseBranch)
  | match (scrutinee : HirExprId) (arms : List HirMatchArm)
  | lambda (params : List SymbolId) (body : HirBodyTarget) (scope : ScopeId)
  | block (block : HirBlockId)
  | error
  deriving DecidableEq

structure HirHandlerArm where
  action : ResolvedActionRef
  patterns : List HirPatId
  continuation : Option HirPatId
  body : HirBlockId
  scope : ScopeId

/-! Statements and patterns. -/

structure HirBlock where
  stmts : List HirStmtId
  finalExpr : Option HirExprId
  scope : ScopeId

inductive HirStmt where
  | let (pat : HirPatId) (value : HirExprId)
  | var (pat : HirPatId) (value : HirExprId)
  | assign (target value : HirExprId)
  | if (expr : HirExprId)
  | match (expr : HirExprId)
  | for (pat : HirPatId) (iter : HirExprId) (limits : List HirExprId) (body : HirBlockId)
  | while (cond : HirExprId) (limits : List HirExprId) (body : HirBlockId)
  | retry (limits : List HirExprId) (body : HirBlockId)
  | resume (value : Option HirExprId)
  | finish (value : HirExprId)
  | return (value : Option HirExprId)
  | break
  | continue
  | expr (expr : HirExprId)
  | error

structure HirRecordPatField where
  name : String
  pat : Option HirPatId

inductive HirPat where
  | binding (symbol : SymbolId)
  | wildcard
  | literal (literal : HirLiteral)
  | tuple (elems : List HirPatId)
  | record (path : Option ResolvedPath) (fields : List HirRecordPatField)
  | variant (path : ResolvedPath) (args : List HirPatId)
  | error

inductive HirFlowBody where
  | block (block : HirBlockId)
  | expr (expr : HirExprId) (loweredBlock : HirBlockId)

def HirFlowBody.blockId : HirFlowBody → HirBlockId
  | .block id => id
  | .expr _ loweredBlock => loweredBlock

structure HirFlowDecl where
  symbol : SymbolId
  params : List SymbolId
  body : HirFlowBody
  scope : ScopeId

inductive HirToolBody where
  | source (body : HirFlowBody)
  | decl
  | error

inductive HirAgentBody where
  | source (block : HirBlockId)
  | decl
  | error

inductive HirImplItem where
  | flow (flow : HirFlowDecl)
  | callable (item : HirItemId)
  | action
  | error

inductive HirItem where
  | typeAlias (scope : ScopeId)
  | type (scope : ScopeId)
  | enum (scope : ScopeId)
  | spec (scope : ScopeId)
  | impl (items : List HirImplItem) (scope : ScopeId)
  | effect (scope : ScopeId)
  | topLevelLet (value : HirExprId)
  | tool (body : HirToolBody) (scope : ScopeId)
  | agent (body : HirAgentBody) (scope : ScopeId)
  | protocol (scope : ScopeId)
  | flow (decl : HirFlowDecl)
  | error

/-- The values of the arguments of an annotation, positional or named. -/
structure HirAnnotation where
  path : List String
  args : List HirExprId

/-- A module whose source declares none has no name. -/
structure HirModule where
  items : List HirItemId
  scope : ScopeId
  name : Option (List String)

inductive ScopeOwner where
  | module (module : HirModuleId)
  | item (item : HirItemId)
  | block (block : HirBlockId)
  | lambda (expr : HirExprId)
  | handler (expr : HirExprId)
  | matchArm (expr : HirExprId)
  deriving DecidableEq

inductive ScopeNamespace where
  | item | module
  deriving DecidableEq

structure Scope where
  parent : Option ScopeId
  owner : ScopeOwner
  names : Map (ScopeNamespace × String) (List SymbolId)
  span : Span

inductive SymbolKind where
  | module | typeAlias | type | enum | spec | enumVariant | flow | agent | tool | topLevelLet
  | protocol | effect | effectAction | param | local | field | typeParam | effectParam
  | «import» | stdPreludeAlias
  deriving DecidableEq

inductive ImportAliasOrigin where
  | sourceImport | stdPrelude
  deriving DecidableEq

inductive SymbolDef where
  | module (module : HirModuleId)
  | item (item : HirItemId)
  | topLevelLet (item : HirItemId)
  | param (owner : HirItemId)
  | local (binding : HirStmtId)
  | patternBinding
  | field (owner : HirItemId)
  | effectAction (declaringItem : HirItemId)
  | typeParam (owner : HirItemId) (bounds : List HirTypeParamBound)
  | effectParam (owner : HirItemId)
  | enumVariant (enumItem : HirItemId) (variantIndex : ℕ)
  | externalEnumVariant (enumPath : List String) (variantIndex : ℕ)
  | importAlias (path : List String) (origin : ImportAliasOrigin)
  | synthetic
  | error
  deriving DecidableEq

structure Symbol where
  name : String
  kind : SymbolKind
  definition : SymbolDef
  deriving DecidableEq

/-- A parameter, or the binding of a `let`, a `var` or a pattern. -/
def SymbolKind.isLocal : SymbolKind → Bool
  | .param | .local => true
  | _ => false

structure SymbolTable where
  symbols : List Symbol
  members : Map (SymbolId × String) (List SymbolId)

inductive DiagnosticCode where
  | unresolvedName
  | other (code : ℕ)
  deriving DecidableEq

structure Diagnostic where
  code : DiagnosticCode
  span : Span
  message : String

structure HirProgram where
  modules : List HirModuleId
  modulesArena : List HirModule
  scopes : List Scope
  items : List HirItem
  itemAnnotations : Map HirItemId (List HirAnnotation)
  exprs : List HirExpr
  handlerArms : List HirHandlerArm
  stmts : List HirStmt
  pats : List HirPat
  blocks : List HirBlock
  optimizedOutBlocks : List HirBlockId
  optimizedOutExprs : List HirExprId
  optimizedOutPatterns : List HirPatId
  optimizedOutStatements : List HirStmtId
  symbols : SymbolTable
  sourceImportTargets : Map SymbolId SymbolId
  lexicalSources : Map SourceId SourceId
  types : List HirType
  diagnostics : List Diagnostic

/-- Nothing is declared. -/
def HirProgram.empty : HirProgram where
  modules := []
  modulesArena := []
  scopes := []
  items := []
  itemAnnotations := ∅
  exprs := []
  handlerArms := []
  stmts := []
  pats := []
  blocks := []
  optimizedOutBlocks := []
  optimizedOutExprs := []
  optimizedOutPatterns := []
  optimizedOutStatements := []
  symbols := ⟨[], ∅⟩
  sourceImportTargets := ∅
  lexicalSources := ∅
  types := []
  diagnostics := []

end EtasFrontend.Hir
