import EtasFrontend.Hir.Scope
import Mathlib.Algebra.GroupWithZero.Nat

/-! Resolution of names and paths while a module is lowered. The registry of the standard library
is a parameter. -/
namespace EtasFrontend.Hir
open Lib

/-! The standard library. -/

abbrev StdSymbolId := ℕ

inductive StdNamespace where
  | type | effect | value | module
  deriving DecidableEq

structure StdSymbol where
  id : StdSymbolId
  space : StdNamespace
  isTypeDecl : Bool
  qualifiedPath : List String

structure StdRegistry where
  /-- The symbols of the prelude candidates of a name. -/
  preludeCandidates : String → List StdSymbol
  lookupQualified : List String → Option StdSymbol
  enumConstructor : StdSymbolId → String → Option StdSymbol

inductive PreludeContext where
  | any | type | effect | value

def PreludeContext.accepts : PreludeContext → StdNamespace → Bool
  | .any, _ => true
  | .type, space => space == .type
  | .effect, space => space == .effect
  | .value, space => space == .type || space == .value || space == .module

inductive HirDiagnostic where
  | duplicateSymbol (name : String)
  | importAliasConflict (name : String)
  | unresolvedName (name : String)
  | ambiguousName (name : String)

structure LowerCtx where
  scopes : ScopeTree
  symbols : SymbolTable
  currentModule : HirModuleId
  currentModuleScope : Option ScopeId
  stdPreludeAliases : Map (HirModuleId × String × StdSymbolId) SymbolId
  stdQualifiedAliases : Map (HirModuleId × List String) SymbolId
  diagnostics : List HirDiagnostic

def pathText (segments : List String) : String := String.intercalate "." segments

namespace LowerCtx

def new : LowerCtx where
  scopes := .empty
  symbols := .empty
  currentModule := 0
  currentModuleScope := none
  stdPreludeAliases := ∅
  stdQualifiedAliases := ∅
  diagnostics := []

def report (ctx : LowerCtx) (diagnostic : HirDiagnostic) : LowerCtx :=
  { ctx with diagnostics := ctx.diagnostics ++ [diagnostic] }

def reportUnresolved (ctx : LowerCtx) (report : Bool) (name : String) : LowerCtx :=
  if report && !name.isEmpty then ctx.report (.unresolvedName name) else ctx

def reportAmbiguous (ctx : LowerCtx) (report : Bool) (name : String) : LowerCtx :=
  if report && !name.isEmpty then ctx.report (.ambiguousName name) else ctx

def allocSymbol (ctx : LowerCtx) (data : Symbol) : SymbolId × LowerCtx :=
  let (symbol, symbols) := ctx.symbols.alloc data
  (symbol, { ctx with symbols })

def insertSymbol (ctx : LowerCtx) (scope : ScopeId) (name : String) (symbol : SymbolId) :
    LowerCtx :=
  let bound := (ScopeTree.localSymbols ctx.scopes.scopes .item name scope).isSome
  let ctx := { ctx with scopes := ctx.scopes.insert scope name symbol }
  if bound then ctx.report (.duplicateSymbol name) else ctx

def insertModuleSymbol (ctx : LowerCtx) (scope : ScopeId) (name : String) (symbol : SymbolId) :
    LowerCtx :=
  let bound := (ScopeTree.localSymbols ctx.scopes.scopes .module name scope).isSome
  let ctx := { ctx with scopes := ctx.scopes.insertInNamespace scope .module name symbol }
  if bound then ctx.report (.duplicateSymbol name) else ctx

def bindSymbolWithDef (ctx : LowerCtx) (scope : ScopeId) (data : Symbol) : SymbolId × LowerCtx :=
  let (symbol, ctx) := ctx.allocSymbol data
  (symbol, ctx.insertSymbol scope data.name symbol)

def importAlias (name : String) (kind : SymbolKind) (path : List String)
    (origin : ImportAliasOrigin) : Symbol :=
  ⟨name, kind, .importAlias path origin⟩

/-- The alias of an import under a name that is neither empty nor an error. -/
def importBinding (ctx : LowerCtx) (scope : ScopeId) (localName : String) (path : List String) :
    SymbolId × LowerCtx :=
  let bound := (ScopeTree.localSymbols ctx.scopes.scopes .item localName scope).isSome
  let (symbol, ctx) := ctx.allocSymbol (importAlias localName .«import» path .sourceImport)
  let ctx := { ctx with scopes := ctx.scopes.insert scope localName symbol }
  (symbol, if bound then ctx.report (.importAliasConflict localName) else ctx)

variable (std : StdRegistry)

def stdPreludeAlias (ctx : LowerCtx) (name : String) (candidate : StdSymbol) :
    SymbolId × LowerCtx :=
  let key := (ctx.currentModule, name, candidate.id)
  match ctx.stdPreludeAliases.get key with
  | some symbol => (symbol, ctx)
  | none =>
    let (symbol, ctx) :=
      ctx.allocSymbol (importAlias name .stdPreludeAlias candidate.qualifiedPath .stdPrelude)
    (symbol, { ctx with stdPreludeAliases := ctx.stdPreludeAliases.insert key symbol })

def preludeAliases (name : String) : List StdSymbol → LowerCtx → List SymbolId × LowerCtx
  | [], ctx => ([], ctx)
  | candidate :: rest, ctx =>
    let (symbol, ctx) := ctx.stdPreludeAlias name candidate
    let (symbols, ctx) := preludeAliases name rest ctx
    (symbol :: symbols, ctx)

/-- The prelude symbols that a name may stand for. -/
def preludeAccepted (ctx : LowerCtx) (name : String) (context : PreludeContext) : List StdSymbol :=
  if ctx.currentModuleScope.isNone then []
  else (std.preludeCandidates name).filter fun candidate => context.accepts candidate.space

def resolveStdPreludeName (ctx : LowerCtx) (name : String) (context : PreludeContext) :
    ResolveResult × LowerCtx :=
  let (symbols, ctx) := preludeAliases name (ctx.preludeAccepted std name context) ctx
  (ScopeTree.resolveSymbols symbols, ctx)

def resolveNameInContext (ctx : LowerCtx) (name : String) (scope : ScopeId) (report : Bool)
    (context : PreludeContext) : ResolveResult × LowerCtx :=
  match ctx.scopes.lookup scope name with
  | .unresolved =>
    match ctx.resolveStdPreludeName std name context with
    | (.unresolved, ctx) => (.unresolved, ctx.reportUnresolved report name)
    | (.ambiguous symbols, ctx) => (.ambiguous symbols, ctx.reportAmbiguous report name)
    | result => result
  | .ambiguous symbols => (.ambiguous symbols, ctx.reportAmbiguous report name)
  | result => (result, ctx)

def resolveStdQualifiedPath (ctx : LowerCtx) (path : List String) : Option SymbolId × LowerCtx :=
  match ctx.currentModuleScope with
  | none => (none, ctx)
  | some moduleScope =>
    let key := (ctx.currentModule, path)
    match ctx.stdQualifiedAliases.get key with
    | some symbol => (some symbol, ctx)
    | none =>
      match std.lookupQualified path with
      | none => (none, ctx)
      | some target =>
        let (symbol, ctx) := ctx.allocSymbol
          (importAlias (pathText path) .stdPreludeAlias target.qualifiedPath .stdPrelude)
        (some symbol,
          { ctx with
            scopes := ctx.scopes.insert moduleScope (pathText path) symbol
            stdQualifiedAliases := ctx.stdQualifiedAliases.insert key symbol })

/-- The constructor that a standard enumeration reached through an alias has under a name. -/
def stdEnumConstructor (ctx : LowerCtx) (owner : SymbolId) (remaining : List String) :
    Option StdSymbol :=
  match remaining, ctx.symbols.symbols[owner]? with
  | [member], some ⟨_, _, .importAlias path _⟩ =>
    (std.lookupQualified path).bind fun owner => std.enumConstructor owner.id member
  | _, _ => none

def resolveStdEnumMember (ctx : LowerCtx) (owner : SymbolId) (remaining : List String) :
    Option SymbolId × LowerCtx :=
  match ctx.stdEnumConstructor std owner remaining with
  | some constructor => ctx.resolveStdQualifiedPath std constructor.qualifiedPath
  | none => (none, ctx)

def pointsToStdType (path : List String) : Bool :=
  path.head? == some "std" && (std.lookupQualified path).any (·.isTypeDecl)

def partialReasonForPrefix (ctx : LowerCtx) (symbol : SymbolId) : PartialResolutionReason :=
  match ctx.symbols.symbols[symbol]? with
  | some ⟨_, .module, _⟩ => .moduleMemberMissing
  | some ⟨_, _, .importAlias path _⟩ =>
    if pointsToStdType std path then .memberRequiresTypeChecking else .moduleMemberMissing
  | _ => .memberRequiresTypeChecking

def packageResolverRequired (path : List String) : Bool :=
  ["std", "host", "runtime", "provider", "providers"].any fun first => path.head? == some first

def unsupportedPathShape (path : List String) : Bool := 3 < path.length

/-- What is left when no part of a path names a symbol. -/
def resolveStdPath (ctx : LowerCtx) (path : List String) (report : Bool) :
    ResolveResult × LowerCtx :=
  match ctx.resolveStdQualifiedPath std path with
  | (some symbol, ctx) => (.resolved symbol, ctx)
  | (none, ctx) =>
    if packageResolverRequired path then
      (.partiallyResolved ⟨none, 0, path, .packageResolverRequired⟩, ctx)
    else if unsupportedPathShape path then
      (.partiallyResolved ⟨none, 0, path, .unsupportedPathShape⟩, ctx)
    else (.unresolved, ctx.reportUnresolved report (pathText path))

/-- The resolution of a path whose first `length` segments name `symbol`. -/
def resolveAfterPrefix (ctx : LowerCtx) (path : List String) (length : ℕ) (symbol : SymbolId) :
    ResolveResult × LowerCtx :=
  let remaining := path.drop length
  let member := match remaining with
    | [name] => ctx.symbols.resolveMember symbol name
    | _ => .unresolved
  if member ≠ .unresolved then (member, ctx)
  else
    match ctx.resolveStdEnumMember std symbol remaining with
    | (some member, ctx) => (.resolved member, ctx)
    | (none, ctx) =>
      (.partiallyResolved ⟨some symbol, min length (2 ^ 32 - 1), remaining,
        ctx.partialReasonForPrefix std symbol⟩, ctx)

/-- The proper prefixes of at most `length` segments, the longest first. -/
def resolveQualifiedPrefix (path : List String) (scope : ScopeId) (report : Bool)
    (context : PreludeContext) : ℕ → LowerCtx → ResolveResult × LowerCtx
  | 0, ctx => ctx.resolveStdPath std path report
  | length + 1, ctx =>
    let text := pathText (path.take (length + 1))
    match ctx.resolveNameInContext std text scope false context with
    | (.resolved symbol, ctx) => ctx.resolveAfterPrefix std path (length + 1) symbol
    | (.ambiguous symbols, ctx) =>
      (.ambiguous symbols, if report then ctx.report (.ambiguousName text) else ctx)
    | (.unresolved, ctx) => resolveQualifiedPrefix path scope report context length ctx
    | result => result

def resolvePathInContext (ctx : LowerCtx) (path : List String) (scope : ScopeId) (report : Bool)
    (context : PreludeContext) : ResolveResult × LowerCtx :=
  if 1 < path.length then
    match ctx.resolveNameInContext std (pathText path) scope false context with
    | (.unresolved, ctx) =>
      resolveQualifiedPrefix std path scope report context (path.length - 1) ctx
    | (.ambiguous symbols, ctx) =>
      (.ambiguous symbols, if report then ctx.report (.ambiguousName (pathText path)) else ctx)
    | result => result
  else ctx.resolveNameInContext std (path.headD "") scope report context

end LowerCtx

end EtasFrontend.Hir
