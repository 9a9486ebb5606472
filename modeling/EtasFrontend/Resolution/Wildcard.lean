import EtasFrontend.Resolution.Catalog
import EtasFrontend.Resolution.Members

/-! The aliases of wildcard imports, installed once the exports of a project are known. -/
namespace EtasFrontend.Resolution
open Lib Hir

structure HirExternalImportMember where
  package : ExternalPackageId
  path : List String
  span : Span

structure HirItemBindings where
  astToHir : Map AstItemRef HirItemId
  externalImportMembers : Map SymbolId HirExternalImportMember

structure ProjectContext where
  modules : Option ModuleIndex
  moduleCatalog : Option ModuleCatalog
  hirItemBindings : Option HirItemBindings
  diagnostics : List Diagnostic

/-- The symbol of an item, and the members that its aliases have with it. -/
structure ItemFacts where
  symbol : HirItemId → Option SymbolId
  members : HirItemId → List (String × SymbolId)

/-! The scopes of the parts. -/

def moduleToHir (hir : HirProgram) (path : List String) : Option HirModuleId :=
  hir.modules.find? fun hirModule =>
    (hir.modulesArena[hirModule]?.bind HirModule.name) == some path

def hirPartScope (hir : HirProgram) (hirModule : HirModuleId) (source : SourceId) :
    Option ScopeId :=
  hir.modulesArena[hirModule]?.bind fun data =>
    hir.scopes.findIdx? fun scope =>
      scope.owner == .module hirModule && scope.parent == some data.scope &&
        scope.span.source == source

def partScopes (hir : HirProgram) (modules : ModuleIndex) (part : ModulePartId) : Option ScopeId :=
  modules.parts[part]?.bind fun part =>
    (modules.modules[part.module]?.bind (moduleToHir hir ·.path)).bind (hirPartScope hir · part.source)

def sourceScopes (hir : HirProgram) (modules : ModuleIndex) (source : SourceId) : Option ScopeId :=
  (modules.parts.findIdx? (·.source == source)).bind (partScopes hir modules)

/-! One alias for each name that one wildcard import of a part exports. -/

/-- Every name that a wildcard import exports, with the part that imports it. -/
def wildcardNames (wildcards : List ResolvedWildcardImport) :
    List (ModuleId × ModulePartId × String) :=
  wildcards.flatMap fun wildcard =>
    wildcard.exportedNames.map fun name => (wildcard.from, wildcard.fromPart, name)

def wildcardImportNameCounts (wildcards : List ResolvedWildcardImport)
    (key : ModuleId × ModulePartId × String) : ℕ :=
  (wildcardNames wildcards).count key

def bindExternal (bindings : Option HirItemBindings) (symbol : SymbolId) (path : List String)
    (span : Span) : ImportTarget → Except String (Option HirItemBindings)
  | .externalItem _ (some package) _ _ _ _ =>
    match bindings with
    | some bindings =>
      let members := bindings.externalImportMembers.insert symbol ⟨package, path, span⟩
      .ok (some { bindings with externalImportMembers := members })
    | none => .error "external import has no HIR bindings"
  | _ => .ok bindings

def bindMembers (symbols : SymbolTable) (owner : SymbolId) (members : List (String × SymbolId)) :
    SymbolTable :=
  members.foldl (fun symbols member => symbols.insertMember owner member.1 member.2) symbols

def bindSource (items : ItemFacts) (bindings : Option HirItemBindings) (symbol : SymbolId)
    (hir : HirProgram) : ImportTarget → HirProgram
  | .sourceItem _ _ _ item =>
    match bindings.bind (·.astToHir.get item) with
    | some item =>
      let targets :=
        match items.symbol item with
        | some target => hir.sourceImportTargets.insert symbol target
        | none => hir.sourceImportTargets
      { hir with
        sourceImportTargets := targets
        symbols := bindMembers hir.symbols symbol (items.members item) }
    | none => hir
  | _ => hir

def installAlias (items : ItemFacts) (catalog : ModuleCatalog) (scope : ScopeId)
    (wildcard : ResolvedWildcardImport) (bindings : Option HirItemBindings) (hir : HirProgram)
    (name : String) : Except String (Option HirItemBindings × HirProgram) :=
  match wildcard.targets.get name with
  | none => .error "wildcard import has no resolved item target"
  | some target =>
    match target.catalogPath catalog with
    | none => .error "wildcard item target has no catalog path"
    | some path =>
      let (symbol, symbols) := hir.symbols.alloc ⟨name, .import, .importAlias path .sourceImport⟩
      let scopes := hir.scopes.modify scope (·.bind (.item, name) symbol)
      match bindExternal bindings symbol path wildcard.span target with
      | .error message => .error message
      | .ok bindings =>
        .ok (bindings, bindSource items bindings symbol { hir with symbols, scopes } target)

def installName (items : ItemFacts) (catalog : ModuleCatalog)
    (wildcards : List ResolvedWildcardImport) (scope : ScopeId)
    (wildcard : ResolvedWildcardImport) (state : Option HirItemBindings × HirProgram)
    (name : String) : Except String (Option HirItemBindings × HirProgram) :=
  if wildcardImportNameCounts wildcards (wildcard.from, wildcard.fromPart, name) ≠ 1 then
    .ok state
  else if lookupName state.2 scope name ≠ .unresolved then
    .ok state
  else installAlias items catalog scope wildcard state.1 state.2 name

def installWildcard (items : ItemFacts) (catalog : ModuleCatalog)
    (wildcards : List ResolvedWildcardImport) (scopes : ModulePartId → Option ScopeId)
    (state : Option HirItemBindings × HirProgram) (wildcard : ResolvedWildcardImport) :
    Except String (Option HirItemBindings × HirProgram) :=
  match scopes wildcard.fromPart with
  | none => .ok state
  | some scope =>
    wildcard.exportedNames.foldlM (installName items catalog wildcards scope wildcard) state

/-! The paths that the aliases resolve. -/

def isSourceImportAlias (hir : HirProgram) (symbol : SymbolId) : Bool :=
  match hir.symbols.symbols[symbol]? with
  | some ⟨_, _, .importAlias _ .sourceImport⟩ => true
  | _ => false

/-- What a path stands for whose first segment is an alias. -/
def throughAlias (symbol : SymbolId) : List String → ResolveResult
  | [] => .resolved symbol
  | rest => .partiallyResolved ⟨some symbol, 1, rest, .packageResolverRequired⟩

def wildcardAliasResolution (hir : HirProgram) (scopes : SourceId → Option ScopeId)
    (path : ResolvedPath) : Option ResolveResult :=
  match path.resolution, path.segments, scopes (lexicalSource hir path.span.source) with
  | .unresolved, name :: rest, some scope =>
    match lookupName hir scope name with
    | .resolved symbol =>
      if isSourceImportAlias hir symbol then some (throughAlias symbol rest) else none
    | _ => none
  | _, _, _ => none

def wildcardAliasPath (hir : HirProgram) (scopes : SourceId → Option ScopeId)
    (path : ResolvedPath) : ResolvedPath :=
  match wildcardAliasResolution hir scopes path with
  | some resolution => { path with resolution }
  | none => path

def mapReflectPaths (f : ResolvedPath → ResolvedPath) : HirReflectTarget → HirReflectTarget
  | .path path => .path (f path)
  | .specMethod receiver spec method => .specMethod (f receiver) (f spec) method

def mapExprPaths (f : ResolvedPath → ResolvedPath) : HirExpr → HirExpr
  | .path path => .path (f path)
  | .reflect target => .reflect (mapReflectPaths f target)
  | expr => expr

def mapTypePath (f : ResolvedPath → ResolvedPath) : HirType → HirType
  | .path path args => .path (f path) args
  | ty => ty

def mapBoundPath (f : ResolvedPath → ResolvedPath) (bound : HirTypeParamBound) :
    HirTypeParamBound :=
  { bound with path := f bound.path }

def mapSymbolBounds (f : ResolvedPath → ResolvedPath) (symbol : Symbol) : Symbol :=
  match symbol.definition with
  | .typeParam owner bounds =>
    { symbol with definition := .typeParam owner (bounds.map (mapBoundPath f)) }
  | _ => symbol

def exprReferences : HirExpr → List ResolvedPath
  | .path path => [path]
  | .reflect target => reflectPaths target
  | _ => []

def typeReferences : HirType → List ResolvedPath
  | .path path _ => [path]
  | _ => []

def boundReferences (symbol : Symbol) : List ResolvedPath :=
  match symbol.definition with
  | .typeParam _ bounds => bounds.map HirTypeParamBound.path
  | _ => []

/-- The paths that an alias of a wildcard import may resolve. -/
def aliasReferences (hir : HirProgram) : List ResolvedPath :=
  hir.exprs.flatMap exprReferences ++ hir.types.flatMap typeReferences ++
    hir.symbols.symbols.flatMap boundReferences

/-- The updates are all found before any of them is made. -/
def resolveWildcardAliasPaths (hir : HirProgram) (scopes : SourceId → Option ScopeId) :
    HirProgram × List Span :=
  let resolve := wildcardAliasPath hir scopes
  let resolved := (aliasReferences hir).filter (wildcardAliasResolution hir scopes · |>.isSome)
  ({ hir with
      exprs := hir.exprs.map (mapExprPaths resolve)
      types := hir.types.map (mapTypePath resolve)
      symbols :=
        { hir.symbols with symbols := hir.symbols.symbols.map (mapSymbolBounds resolve) } },
    resolved.map ResolvedPath.span)

def pruneResolvedWildcardDiagnostics (diagnostics : List Diagnostic) (spans : List Span) :
    List Diagnostic :=
  diagnostics.filter fun diagnostic =>
    diagnostic.code != .unresolvedName || !spans.contains diagnostic.span

def installWildcardImportAliases (items : ItemFacts) (context : ProjectContext)
    (hir : HirProgram) (wildcards : List ResolvedWildcardImport) :
    Except String (ProjectContext × HirProgram) :=
  if wildcards.isEmpty then .ok (context, hir)
  else
    match context.modules, context.moduleCatalog with
    | none, _ => .error "wildcard imports require a module index"
    | some _, none => .error "wildcard imports require a module catalog"
    | some modules, some catalog =>
      let install := installWildcard items catalog wildcards (partScopes hir modules)
      match wildcards.foldlM install (context.hirItemBindings, hir) with
      | .error message => .error message
      | .ok (bindings, installed) =>
        let (resolved, spans) := resolveWildcardAliasPaths installed (sourceScopes hir modules)
        let diagnostics := pruneResolvedWildcardDiagnostics context.diagnostics spans
        .ok ({ context with hirItemBindings := bindings, diagnostics },
          { resolved with
            diagnostics := pruneResolvedWildcardDiagnostics resolved.diagnostics spans })

end EtasFrontend.Resolution
