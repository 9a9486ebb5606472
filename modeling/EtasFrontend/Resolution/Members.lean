import EtasFrontend.Hir.Scope
import Mathlib.Algebra.GroupWithZero.Nat

/-! The pass that resolves members once the imports of a project are known. -/
namespace EtasFrontend.Resolution
open Lib Hir

def lexicalSource (hir : HirProgram) (source : SourceId) : SourceId :=
  (hir.lexicalSources.get source).getD source

def isModuleOwner : ScopeOwner → Bool
  | .module _ => true
  | _ => false

/-- A scope of a module inside of another scope of that module. -/
def isPartScope (hir : HirProgram) (scope : Scope) : Bool :=
  isModuleOwner scope.owner &&
    (scope.parent.bind (hir.scopes[·]?)).any fun parent => parent.owner == scope.owner

/-- The scope of the part of a module that a path was written in. -/
def partScope (hir : HirProgram) (span : Span) : Option ScopeId :=
  hir.scopes.findIdx? fun scope =>
    isPartScope hir scope && scope.span.source == lexicalSource hir span.source

def lookupName (hir : HirProgram) (scope : ScopeId) (name : String) : ResolveResult :=
  ScopeTree.lookupLoop hir.scopes .item name (scope + 1) (some scope)

/-- The member that two segments name in the part of the module that they were written in. -/
def partMember (hir : HirProgram) (path : ResolvedPath) : Option ResolveResult :=
  match path.segments, partScope hir path.span with
  | [owner, name], some scope =>
    match lookupName hir scope owner with
    | .resolved owner =>
      let resolution := hir.symbols.resolveMember owner name
      if resolution = .unresolved then none else some resolution
    | _ => none
  | _, _ => none

/-- The members that the remaining segments name, after `index` of them. -/
def advanceLoop (symbols : SymbolTable) (resolvedSegments : ℕ) :
    SymbolId → ℕ → List String → Option ResolveResult
  | owner, _, [] => some (.resolved owner)
  | owner, index, name :: rest =>
    match symbols.resolveMember owner name with
    | .resolved member => advanceLoop symbols resolvedSegments member (index + 1) rest
    | .ambiguous members => some (.ambiguous members)
    | .unresolved =>
      if 0 < index && resolvedSegments + index < 2 ^ 32 then
        some (.partiallyResolved
          ⟨some owner, resolvedSegments + index, name :: rest, .memberRequiresTypeChecking⟩)
      else none
    | .partiallyResolved _ => none

/-- The new resolution of a path, if it has one. -/
def pathResolution (hir : HirProgram) (path : ResolvedPath) : Option ResolveResult :=
  match path.resolution with
  | .unresolved => partMember hir path
  | .partiallyResolved ⟨some owner, resolvedSegments, name :: rest, _⟩ =>
    advanceLoop hir.symbols resolvedSegments owner 0 (name :: rest)
  | _ => none

def resolvePath (hir : HirProgram) (path : ResolvedPath) : ResolvedPath × List Span :=
  match pathResolution hir path with
  | some resolution => ({ path with resolution }, [path.span])
  | none => (path, [])

structure ResolvedMembers where
  paths : List Span
  actions : List Span

def ResolvedMembers.append (a b : ResolvedMembers) : ResolvedMembers :=
  ⟨a.paths ++ b.paths, a.actions ++ b.actions⟩

/-- The action of a source effect. -/
def sourceActionResolution (hir : HirProgram) (action : ResolvedActionRef) : Option ResolveResult :=
  match action.effectPath.resolution with
  | .resolved owner =>
    let owner := (hir.sourceImportTargets.get owner).getD owner
    match hir.symbols.symbols[owner]? with
    | some ⟨_, _, .item item⟩ =>
      match hir.items[item]? with
      | some (.effect _) => some (hir.symbols.resolveMember owner action.action)
      | _ => none
    | _ => none
  | _ => none

def isResolved : ResolveResult → Bool
  | .resolved _ => true
  | _ => false

def resolveAction (hir : HirProgram) (action : ResolvedActionRef) :
    ResolvedActionRef × ResolvedMembers :=
  let (effectPath, paths) := resolvePath hir action.effectPath
  let action := { action with effectPath }
  match sourceActionResolution hir action with
  | some resolution =>
    ({ action with actionSymbol := resolution },
      ⟨paths, if isResolved resolution then [action.span] else []⟩)
  | none => (action, ⟨paths, []⟩)

def resolveReflect (hir : HirProgram) : HirReflectTarget → HirReflectTarget × List Span
  | .path path =>
    let (path, paths) := resolvePath hir path
    (.path path, paths)
  | .specMethod receiver spec method =>
    let (receiver, first) := resolvePath hir receiver
    let (spec, second) := resolvePath hir spec
    (.specMethod receiver spec method, first ++ second)

def reflectPaths : HirReflectTarget → List ResolvedPath
  | .path path => [path]
  | .specMethod receiver spec _ => [receiver, spec]

/-- The paths of an expression whose members are resolved. -/
def exprPaths : HirExpr → List ResolvedPath
  | .reflect target => reflectPaths target
  | .path path => [path]
  | .perform action _ => [action.effectPath]
  | .record (some path) _ => [path]
  | _ => []

/-- What an expression becomes by itself. -/
def resolveExpr (hir : HirProgram) : HirExpr → HirExpr × ResolvedMembers
  | .reflect target =>
    let (target, paths) := resolveReflect hir target
    (.reflect target, ⟨paths, []⟩)
  | .path path =>
    let (path, paths) := resolvePath hir path
    (.path path, ⟨paths, []⟩)
  | .perform action args =>
    let (action, resolved) := resolveAction hir action
    (.perform action args, resolved)
  | .record (some path) fields =>
    let (path, paths) := resolvePath hir path
    (.record (some path) fields, ⟨paths, []⟩)
  | expr => (expr, ⟨[], []⟩)

/-- The callee of a method call on an expression, if the method is a member. -/
def memberCallee (symbols : SymbolTable) (receiver : HirExpr) (method : String) :
    Option ResolvedPath :=
  match receiver with
  | .path ⟨segments, .resolved owner, span⟩ =>
    let resolution := symbols.resolveMember owner method
    if resolution = .unresolved then none else some ⟨segments ++ [method], resolution, span⟩
  | _ => none

def visitExpr (hir : HirProgram) (id : HirExprId) (expr : HirExpr) : HirProgram × ResolvedMembers :=
  match expr with
  | .methodCall receiver method args =>
    match hir.exprs[receiver]?.bind (memberCallee hir.symbols · method) with
    | some path =>
      let exprs := hir.exprs.set receiver (.path path)
      ({ hir with exprs := exprs.set id (.call receiver args) }, ⟨[], []⟩)
    | none => ({ hir with exprs := hir.exprs.set id expr }, ⟨[], []⟩)
  | expr =>
    let (expr, resolved) := resolveExpr hir expr
    ({ hir with exprs := hir.exprs.set id expr }, resolved)

/-- The expressions are those from before the pass, while what each becomes is written back. -/
def visitExprs : List HirExpr → HirExprId → HirProgram → HirProgram × ResolvedMembers
  | [], _, hir => (hir, ⟨[], []⟩)
  | expr :: rest, id, hir =>
    let (hir, resolved) := visitExpr hir id expr
    let (hir, others) := visitExprs rest (id + 1) hir
    (hir, resolved.append others)

def resolvePat (hir : HirProgram) : HirPat → HirPat × List Span
  | .variant path args =>
    let (path, paths) := resolvePath hir path
    (.variant path args, paths)
  | .record (some path) fields =>
    let (path, paths) := resolvePath hir path
    (.record (some path) fields, paths)
  | pat => (pat, [])

def resolveArm (hir : HirProgram) (arm : HirHandlerArm) : HirHandlerArm × ResolvedMembers :=
  let (action, resolved) := resolveAction hir arm.action
  ({ arm with action }, resolved)

def resolveMembers (hir : HirProgram) : HirProgram × ResolvedMembers :=
  let (hir, resolved) := visitExprs hir.exprs 0 hir
  let pats := hir.pats.map (resolvePat hir)
  let arms := hir.handlerArms.map (resolveArm hir)
  let resolved := resolved.append ⟨pats.flatMap Prod.snd, []⟩
  ({ hir with pats := pats.map Prod.fst, handlerArms := arms.map Prod.fst },
    (arms.map Prod.snd).foldl ResolvedMembers.append resolved)

end EtasFrontend.Resolution
