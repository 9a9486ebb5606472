import EtasFrontend.Resolution.Wildcard
import EtasFrontend.Lib.Fallible
import Mathlib.Algebra.BigOperators.Group.List.Basic

/-! What the aliases of wildcard imports change in a program. -/
namespace EtasFrontend.Resolution
open Lib Hir

/-- One wildcard import of the part exports the name, and no other import of the part does. -/
def OnlyExport (wildcards : List ResolvedWildcardImport) (part : ModulePartId) (name : String)
    (wildcard : ResolvedWildcardImport) : Prop :=
  wildcard.fromPart = part ∧ name ∈ wildcard.exportedNames ∧
    ∃ before after, wildcards = before ++ wildcard :: after ∧
      ∀ other ∈ before ++ after, other.fromPart = part → name ∉ other.exportedNames

/-- The imports of a part are imports of its module. -/
def FromParts (modules : ModuleIndex) (wildcards : List ResolvedWildcardImport) : Prop :=
  ∀ wildcard ∈ wildcards,
    modules.parts[wildcard.fromPart]?.map ModulePart.module = some wildcard.from

/-- No scope is around the scope of a module. -/
def ModulesOutermost (hir : HirProgram) : Prop :=
  ∀ data ∈ hir.modulesArena, hir.scopes[data.scope]?.bind Scope.parent = none

/-- The alias of an export that a wildcard import found. -/
def IsAliasOf (catalog : ModuleCatalog) (wildcard : ResolvedWildcardImport)
    (name : String) (symbols : List Symbol) (symbol : SymbolId) : Prop :=
  ∃ target path, wildcard.targets.get name = some target ∧
    target.catalogPath catalog = some path ∧
    symbols[symbol]? = some ⟨name, .import, .importAlias path .sourceImport⟩

/-- The path is written in a part, whose names are bound in a scope. -/
def InPart (hir : HirProgram) (modules : ModuleIndex) (path : ResolvedPath) (part : ModulePartId)
    (scope : ScopeId) : Prop :=
  modules.parts[part]?.map ModulePart.source = some (lexicalSource hir path.span.source) ∧
    partScopes hir modules part = some scope

/-- A scope inside of the scope of a part, and none around it, binds the name. -/
def Unbound (tree : ScopeTree) (scope : ScopeId) (name : String) : Prop :=
  ∃ use, tree.Encloses scope use ∧ ∀ outer, tree.Encloses outer use → ¬ tree.Binds outer .item name

/-- An unresolved path whose first segment only one wildcard import of its part exports. -/
structure WildcardReference (hir : HirProgram) (tree : ScopeTree) (modules : ModuleIndex)
    (wildcards : List ResolvedWildcardImport) (path : ResolvedPath) (name : String)
    (rest : List String) (wildcard : ResolvedWildcardImport) : Prop where
  unresolved : path.resolution = .unresolved
  segments : path.segments = name :: rest
  exported : ∃ part scope, InPart hir modules path part scope ∧ Unbound tree scope name ∧
    OnlyExport wildcards part name wildcard

/-- An unresolved path whose first segment its part already bound to an import. -/
structure ImportReference (hir : HirProgram) (tree : ScopeTree) (modules : ModuleIndex)
    (wildcards : List ResolvedWildcardImport) (path : ResolvedPath) (name : String)
    (rest : List String) (symbol : SymbolId) : Prop where
  unresolved : path.resolution = .unresolved
  segments : path.segments = name :: rest
  imported : ∃ part scope, InPart hir modules path part scope ∧
    tree.lookup scope name = .resolved symbol
  source : isSourceImportAlias hir symbol
  ran : wildcards ≠ []

/-- The scopes of a program form a tree, with no scope around those of the modules, and bind
symbols of the table. -/
structure Scoped (hir : HirProgram) (tree : ScopeTree) : Prop where
  scopes : hir.scopes = tree.scopes
  outermost : ModulesOutermost hir
  allocated : ∀ scope name symbol, tree.lookup scope name = .resolved symbol →
    symbol < hir.symbols.symbols.length

/-- The diagnostics of resolved references are gone, and no other. -/
def Pruned (resolve : ResolvedPath → ResolvedPath) (references : List ResolvedPath)
    (before after : List Diagnostic) : Prop :=
  after.Sublist before ∧ ∀ diagnostic, diagnostic ∈ after ↔ diagnostic ∈ before ∧
    ¬ (diagnostic.code = .unresolvedName ∧
      ∃ path ∈ references, path.span = diagnostic.span ∧ resolve path ≠ path)

/-- What else than paths, reflections, type paths and bounds refers to a name. -/
def otherExprReferences : HirExpr → List ResolveResult
  | .record path fields => (path.map ResolvedPath.resolution).toList ++ fields.filterMap fun field =>
      match field with
      | .shorthand _ resolution => some resolution
      | .named _ _ => none
  | .specMethodCall _ specPath _ _ => [specPath.resolution]
  | .perform action _ => [action.effectPath.resolution, action.actionSymbol]
  | .infer action _ => [action.effectPath.resolution, action.actionSymbol]
  | _ => []

def patReferences : HirPat → List ResolveResult
  | .variant path _ => [path.resolution]
  | .record path _ => (path.map ResolvedPath.resolution).toList
  | _ => []

def effectReferences (effect : HirEffectRef) : List ResolveResult :=
  effect.path.resolution :: effect.args.flatMap fun arg =>
    match arg with
    | .path path => [path.resolution]
    | .patternBinding _ bounds _ => bounds.map fun bound => bound.path.resolution
    | _ => []

def rowReferences (row : HirEffectRow) : List ResolveResult :=
  row.effects.flatMap effectReferences ++ (row.tail.map ResolvedPath.resolution).toList

def otherTypeReferences : HirType → List ResolveResult
  | .existential bounds => bounds.map fun bound => bound.path.resolution
  | .handler handled produced _ =>
    rowReferences handled ++ (produced.map rowReferences).getD []
  | .arrow effect _ _ => (effect.map rowReferences).getD []
  | _ => []

/-- What a run leaves of a program, when `resolve` is what becomes of its paths. -/
structure AliasesInstalled (hir : HirProgram) (tree : ScopeTree) (modules : ModuleIndex)
    (catalog : ModuleCatalog) (wildcards : List ResolvedWildcardImport)
    (diagnostics : List Diagnostic) (resolve : ResolvedPath → ResolvedPath)
    (diagnostics' : List Diagnostic) (hir' : HirProgram) : Prop where
  single : ∀ path ∈ aliasReferences hir, ∀ name wildcard,
    WildcardReference hir tree modules wildcards path name [] wildcard →
      (∃ symbol, IsAliasOf catalog wildcard name hir'.symbols.symbols symbol ∧
        resolve path = { path with resolution := .resolved symbol }) ∧
      ∀ diagnostic ∈ hir'.diagnostics ++ diagnostics',
        diagnostic.code = .unresolvedName → diagnostic.span ≠ path.span
  wildcard : ∀ path name rest wildcard,
    WildcardReference hir tree modules wildcards path name rest wildcard →
      ∃ symbol, IsAliasOf catalog wildcard name hir'.symbols.symbols symbol ∧
        resolve path = { path with resolution := throughAlias symbol rest }
  imported : ∀ path name rest symbol,
    ImportReference hir tree modules wildcards path name rest symbol →
      resolve path = { path with resolution := throughAlias symbol rest }
  unchanged : ∀ path,
    (∀ name rest wildcard,
      ¬ WildcardReference hir tree modules wildcards path name rest wildcard) →
    (∀ name rest symbol,
      ¬ ImportReference hir tree modules wildcards path name rest symbol) →
      resolve path = path
  exprs : ∀ (id : HirExprId) (expr : HirExpr), hir.exprs[id]? = some expr →
    .unresolved ∉ otherExprReferences expr → hir'.exprs[id]? = some (mapExprPaths resolve expr)
  types : ∀ (id : HirTypeId) (ty : HirType), hir.types[id]? = some ty →
    .unresolved ∉ otherTypeReferences ty → hir'.types[id]? = some (mapTypePath resolve ty)
  symbols : ∀ (id : SymbolId) (symbol : Symbol), hir.symbols.symbols[id]? = some symbol →
    hir'.symbols.symbols[id]? = some (mapSymbolBounds resolve symbol)
  pats : ∀ (id : HirPatId) (pat : HirPat), hir.pats[id]? = some pat →
    .unresolved ∉ patReferences pat → hir'.pats[id]? = some pat
  arms : ∀ (id : HirHandlerArmId) (arm : HirHandlerArm), hir.handlerArms[id]? = some arm →
    .unresolved ∉ [arm.action.effectPath.resolution, arm.action.actionSymbol] →
      hir'.handlerArms[id]? = some arm
  members : ∀ owner < hir.symbols.symbols.length, ∀ name,
    hir'.symbols.members.get (owner, name) = hir.symbols.members.get (owner, name)
  targets : ∀ symbol < hir.symbols.symbols.length,
    hir'.sourceImportTargets.get symbol = hir.sourceImportTargets.get symbol
  pruned : Pruned resolve (aliasReferences hir) hir.diagnostics hir'.diagnostics
  context : Pruned resolve (aliasReferences hir) diagnostics diagnostics'

variable {scope : ScopeId} {part : ModulePartId}

section Scopes
variable {hir : HirProgram} {modules : ModuleIndex}

theorem lookupName_eq {tree : ScopeTree} (htree : hir.scopes = tree.scopes) (scope : ScopeId)
    (name : String) : lookupName hir scope name = tree.lookup scope name := by
  rw [lookupName, htree]
  rfl

theorem partScopes_eq_some (h : partScopes hir modules part = some scope) :
    ∃ data module outer, modules.parts[part]? = some data ∧ outer ∈ hir.modulesArena ∧
      hir.scopes[scope]? = some module ∧ module.parent = some outer.scope ∧
      module.span.source = data.source := by
  obtain ⟨data, hdata, h⟩ := Option.bind_eq_some_iff.mp h
  obtain ⟨hirModule, _, h⟩ := Option.bind_eq_some_iff.mp h
  obtain ⟨outer, houter, h⟩ := Option.bind_eq_some_iff.mp h
  obtain ⟨hlt, hscope, _⟩ := List.findIdx?_eq_some_iff_getElem.mp h
  simp only [Bool.and_eq_true, beq_iff_eq] at hscope
  have hget : hir.scopes[scope]? = some hir.scopes[scope] := List.getElem?_eq_getElem hlt
  exact ⟨data, _, outer, hdata, List.mem_of_getElem? houter, hget, hscope.1.2, hscope.2⟩

variable {part other : ModulePartId}

theorem part_of_source {data data' : ModulePart}
    (h : modules.parts[part]? = some data) (h' : modules.parts[other]? = some data')
    (hsource : data.source = data'.source) : part = other := by
  have hmap : (modules.parts.map ModulePart.source)[part]? =
      (modules.parts.map ModulePart.source)[other]? := by
    rw [List.getElem?_map, List.getElem?_map, h, h', Option.map_some, Option.map_some, hsource]
  have hlt : part < (modules.parts.map ModulePart.source).length := by
    rw [List.length_map]
    exact (List.getElem?_eq_some_iff.mp h).1
  exact (List.getElem?_inj hlt modules.sources).mp hmap

theorem partScopes_inj (h : partScopes hir modules part = some scope)
    (h' : partScopes hir modules other = some scope) : part = other := by
  obtain ⟨data, module, _, hdata, _, hmodule, _, hsource⟩ := partScopes_eq_some h
  obtain ⟨data', module', _, hdata', _, hmodule', _, hsource'⟩ := partScopes_eq_some h'
  rw [hmodule] at hmodule'
  cases hmodule'
  exact part_of_source hdata hdata' (hsource.symm.trans hsource')

theorem partScopes_lt (h : partScopes hir modules part = some scope) :
    scope < hir.scopes.length := by
  obtain ⟨_, _, _, _, _, hscope, _⟩ := partScopes_eq_some h
  exact (List.getElem?_eq_some_iff.mp hscope).1

/-- The scope of one part does not enclose the scope of another. -/
theorem not_encloses_part {tree : ScopeTree} (houter : ModulesOutermost hir)
    (hparent : ∀ id : ℕ, tree.scopes[id]?.bind Scope.parent = hir.scopes[id]?.bind Scope.parent)
    {scope scope' : ScopeId} (hne : other ≠ part)
    (h : partScopes hir modules part = some scope)
    (h' : partScopes hir modules other = some scope') : ¬ tree.Encloses scope' scope := by
  intro hencloses
  obtain ⟨_, module, outer, _, hmem, hmodule, hp, _⟩ := partScopes_eq_some h
  obtain ⟨_, module', outer', _, _, hmodule', hp', _⟩ := partScopes_eq_some h'
  rcases ScopeTree.encloses_iff.mp hencloses with rfl | ⟨between, hbetween, hencloses⟩
  · exact hne (partScopes_inj h' h)
  · rw [ScopeTree.isParent_iff, hparent, hmodule, Option.bind_some, hp] at hbetween
    obtain rfl := Option.some.inj hbetween
    rcases ScopeTree.encloses_iff.mp hencloses with rfl | ⟨further, hfurther, -⟩
    · have hnone := houter outer hmem
      rw [hmodule', Option.bind_some, hp'] at hnone
      cases hnone
    · rw [ScopeTree.isParent_iff, hparent, houter outer hmem] at hfurther
      cases hfurther

theorem sourceScopes_eq_some_iff {source : SourceId} :
    sourceScopes hir modules source = some scope ↔
      ∃ part, modules.parts[part]?.map ModulePart.source = some source ∧
        partScopes hir modules part = some scope := by
  constructor
  · intro h
    obtain ⟨part, hfind, hscope⟩ := Option.bind_eq_some_iff.mp h
    obtain ⟨hlt, hsource, _⟩ := List.findIdx?_eq_some_iff_getElem.mp hfind
    refine ⟨part, ?_, hscope⟩
    rw [List.getElem?_eq_getElem hlt, Option.map_some, eq_of_beq hsource]
  · rintro ⟨part, hpart, hscope⟩
    obtain ⟨data, hdata, hsource⟩ := Option.map_eq_some_iff.mp hpart
    obtain ⟨hlt, hget⟩ := List.getElem?_eq_some_iff.mp hdata
    have hfind : modules.parts.findIdx? (·.source == source) = some part := by
      apply List.findIdx?_eq_some_iff_getElem.mpr
      refine ⟨hlt, ?_, ?_⟩
      · simp [hget, hsource]
      · intro other hother hbeq
        have hother' : modules.parts[other]? = some modules.parts[other] :=
          List.getElem?_eq_getElem (lt_trans hother hlt)
        have heq : modules.parts[other].source = data.source := by
          rw [hsource]
          exact eq_of_beq hbeq
        exact absurd (part_of_source hother' hdata heq) (ne_of_lt hother)
    rw [sourceScopes, hfind, Option.bind_some, hscope]

end Scopes

/-! Names that one import exports. -/

theorem count_exportedNames (wildcard : ResolvedWildcardImport) (key : ModuleId × ModulePartId ×
    String) : (wildcard.exportedNames.map fun name =>
      (wildcard.from, wildcard.fromPart, name)).count key =
      if wildcard.from = key.1 ∧ wildcard.fromPart = key.2.1 ∧ key.2.2 ∈ wildcard.exportedNames
        then 1 else 0 := by
  have hnodup : (wildcard.exportedNames.map fun name =>
      (wildcard.from, wildcard.fromPart, name)).Nodup := by
    apply wildcard.distinct.map
    intro name name' h
    simpa using h
  rw [hnodup.count]
  congr 1
  obtain ⟨module, part, name⟩ := key
  simp only [List.mem_map, Prod.mk.injEq, eq_iff_iff]
  constructor
  · rintro ⟨_, hmem, hfrom, hpart, rfl⟩
    exact ⟨hfrom, hpart, hmem⟩
  · rintro ⟨hfrom, hpart, hmem⟩
    exact ⟨name, hmem, hfrom, hpart, rfl⟩

theorem wildcardImportNameCounts_append (before after : List ResolvedWildcardImport)
    (key : ModuleId × ModulePartId × String) : wildcardImportNameCounts (before ++ after) key =
      wildcardImportNameCounts before key + wildcardImportNameCounts after key := by
  simp [wildcardImportNameCounts, wildcardNames]

theorem wildcardImportNameCounts_cons (wildcard : ResolvedWildcardImport)
    (wildcards : List ResolvedWildcardImport) (key : ModuleId × ModulePartId × String) :
    wildcardImportNameCounts (wildcard :: wildcards) key =
      (if wildcard.from = key.1 ∧ wildcard.fromPart = key.2.1 ∧ key.2.2 ∈ wildcard.exportedNames
        then 1 else 0) + wildcardImportNameCounts wildcards key := by
  rw [← count_exportedNames]
  simp [wildcardImportNameCounts, wildcardNames]

variable {wildcards : List ResolvedWildcardImport}

theorem wildcardImportNameCounts_eq_zero {key : ModuleId × ModulePartId × String} :
    wildcardImportNameCounts wildcards key = 0 ↔
      ∀ wildcard ∈ wildcards, wildcard.from = key.1 → wildcard.fromPart = key.2.1 →
        key.2.2 ∉ wildcard.exportedNames := by
  induction wildcards with
  | nil => simp [wildcardImportNameCounts, wildcardNames]
  | cons wildcard wildcards ih =>
    rw [wildcardImportNameCounts_cons, Nat.add_eq_zero_iff, ih]
    simp

variable {wildcard : ResolvedWildcardImport} {name : String}

theorem wildcardImportNameCounts_eq_one_iff {modules : ModuleIndex}
    (hfrom : FromParts modules wildcards) (hmem : wildcard ∈ wildcards)
    (hname : name ∈ wildcard.exportedNames) :
    wildcardImportNameCounts wildcards (wildcard.from, wildcard.fromPart, name) = 1 ↔
      OnlyExport wildcards wildcard.fromPart name wildcard := by
  have hcount : ∀ before after, wildcards = before ++ wildcard :: after →
      (wildcardImportNameCounts wildcards (wildcard.from, wildcard.fromPart, name) = 1 ↔
        ∀ other ∈ before ++ after, other.fromPart = wildcard.fromPart →
          name ∉ other.exportedNames) := by
    intro before after heq
    have hsame : ∀ other ∈ before ++ after, other.fromPart = wildcard.fromPart →
        other.from = wildcard.from := by
      intro other hother hpart
      have hin : other ∈ wildcards := by
        rw [heq]
        rcases List.mem_append.mp hother with h | h
        · exact List.mem_append_left _ h
        · exact List.mem_append_right _ (List.mem_cons_of_mem _ h)
      have hfrom' := hfrom other hin
      rw [hpart, hfrom wildcard hmem] at hfrom'
      exact (Option.some.inj hfrom').symm
    have hzero : wildcardImportNameCounts wildcards (wildcard.from, wildcard.fromPart, name) = 1 ↔
        wildcardImportNameCounts (before ++ after)
          (wildcard.from, wildcard.fromPart, name) = 0 := by
      rw [heq, wildcardImportNameCounts_append, wildcardImportNameCounts_cons,
        wildcardImportNameCounts_append, if_pos ⟨rfl, rfl, hname⟩]
      omega
    rw [hzero, wildcardImportNameCounts_eq_zero]
    constructor
    · intro h other hother hpart
      exact h other hother (hsame other hother hpart) hpart
    · intro h other hother _ hpart
      exact h other hother hpart
  constructor
  · intro h
    obtain ⟨before, after, heq⟩ := List.append_of_mem hmem
    exact ⟨rfl, hname, before, after, heq, (hcount before after heq).mp h⟩
  · rintro ⟨_, _, before, after, heq, hothers⟩
    exact (hcount before after heq).mpr hothers

theorem OnlyExport.mem (h : OnlyExport wildcards part name wildcard) : wildcard ∈ wildcards := by
  obtain ⟨_, _, before, after, rfl, _⟩ := h
  simp

theorem OnlyExport.unique {wildcard other : ResolvedWildcardImport}
    (h : OnlyExport wildcards part name wildcard) (hmem : other ∈ wildcards)
    (hpart : other.fromPart = part) (hname : name ∈ other.exportedNames) : other = wildcard := by
  obtain ⟨_, _, before, after, rfl, hothers⟩ := h
  by_contra hne
  apply hothers other _ hpart hname
  rcases List.mem_append.mp hmem with hmem | hmem
  · exact List.mem_append_left _ hmem
  · rcases List.mem_cons.mp hmem with hmem | hmem
    · exact absurd hmem hne
    · exact List.mem_append_right _ hmem

/-! One alias, and all of them. -/

theorem bindMembers_symbols (symbols : SymbolTable) (owner : SymbolId)
    (members : List (String × SymbolId)) :
    (bindMembers symbols owner members).symbols = symbols.symbols := by
  induction members generalizing symbols with
  | nil => rfl
  | cons member members ih => exact ih _

theorem bindMembers_members (symbols : SymbolTable) {owner other : SymbolId} (hne : other ≠ owner)
    (members : List (String × SymbolId)) (name : String) :
    (bindMembers symbols owner members).members.get (other, name) =
      symbols.members.get (other, name) := by
  induction members generalizing symbols with
  | nil => rfl
  | cons member members ih =>
    have hkey : (other, name) ≠ (owner, member.1) := fun h => hne (Prod.mk.inj h).1
    have hstep : (symbols.insertMember owner member.1 member.2).members.get (other, name) =
        symbols.members.get (other, name) := Map.get_insert_ne _ hkey _
    exact (ih _).trans hstep

/-- The parts of a program that aliases leave alone, and those of its first symbols. -/
structure OnlyAdds (start hir : HirProgram) : Prop where
  rest : hir = { start with
    scopes := hir.scopes
    symbols := hir.symbols
    sourceImportTargets := hir.sourceImportTargets }
  symbols : ∃ added, hir.symbols.symbols = start.symbols.symbols ++ added ∧
    ∀ symbol ∈ added, ∃ name path, symbol = ⟨name, .import, .importAlias path .sourceImport⟩
  members : ∀ owner < start.symbols.symbols.length, ∀ name,
    hir.symbols.members.get (owner, name) = start.symbols.members.get (owner, name)
  targets : ∀ symbol < start.symbols.symbols.length,
    hir.sourceImportTargets.get symbol = start.sourceImportTargets.get symbol

theorem OnlyAdds.refl (hir : HirProgram) : OnlyAdds hir hir where
  rest := rfl
  symbols := ⟨[], by simp, by simp⟩
  members _ _ _ := rfl
  targets _ _ := rfl

theorem OnlyAdds.trans {first second third : HirProgram} (h : OnlyAdds first second)
    (h' : OnlyAdds second third) : OnlyAdds first third := by
  obtain ⟨added, hadded, hkind⟩ := h.symbols
  obtain ⟨added', hadded', hkind'⟩ := h'.symbols
  have hle : first.symbols.symbols.length ≤ second.symbols.symbols.length := by
    rw [hadded, List.length_append]
    exact Nat.le_add_right _ _
  constructor
  · rw [h'.rest, h.rest]
  · refine ⟨added ++ added', ?_, ?_⟩
    · rw [hadded', hadded, List.append_assoc]
    · intro symbol hsymbol
      rcases List.mem_append.mp hsymbol with hsymbol | hsymbol
      · exact hkind symbol hsymbol
      · exact hkind' symbol hsymbol
  · intro owner hlt name
    rw [h'.members owner (lt_of_lt_of_le hlt hle), h.members owner hlt]
  · intro symbol hlt
    rw [h'.targets symbol (lt_of_lt_of_le hlt hle), h.targets symbol hlt]

variable {symbol : SymbolId}

theorem OnlyAdds.getElem? {start hir : HirProgram} (h : OnlyAdds start hir) {data : Symbol}
    (hdata : start.symbols.symbols[symbol]? = some data) :
    hir.symbols.symbols[symbol]? = some data := by
  obtain ⟨added, hadded, _⟩ := h.symbols
  rw [hadded, List.getElem?_append_left (List.getElem?_eq_some_iff.mp hdata).1, hdata]

/-- What binding the members of a source item leaves of a program. -/
theorem bindSource_spec (items : ItemFacts) (bindings : Option HirItemBindings)
    (symbol : SymbolId) (hir : HirProgram) (target : ImportTarget) :
    (bindSource items bindings symbol hir target).scopes = hir.scopes ∧
      (bindSource items bindings symbol hir target).symbols.symbols = hir.symbols.symbols ∧
      bindSource items bindings symbol hir target = { hir with
        symbols := (bindSource items bindings symbol hir target).symbols
        sourceImportTargets := (bindSource items bindings symbol hir target).sourceImportTargets } ∧
      ∀ other ≠ symbol, (∀ name, (bindSource items bindings symbol hir target).symbols.members.get
        (other, name) = hir.symbols.members.get (other, name)) ∧
        (bindSource items bindings symbol hir target).sourceImportTargets.get other =
          hir.sourceImportTargets.get other := by
  unfold bindSource
  cases target with
  | sourceItem key module name item =>
    dsimp only
    cases bindings.bind (·.astToHir.get item) with
    | none => exact ⟨rfl, rfl, rfl, fun _ _ => ⟨fun _ => rfl, rfl⟩⟩
    | some item =>
      refine ⟨rfl, bindMembers_symbols _ _ _, rfl, fun other hne => ⟨fun name => ?_, ?_⟩⟩
      · exact bindMembers_members _ hne _ _
      · dsimp only
        cases items.symbol item with
        | none => rfl
        | some target => exact Map.get_insert_ne _ hne _
  | _ => exact ⟨rfl, rfl, rfl, fun _ _ => ⟨fun _ => rfl, rfl⟩⟩

variable {hir : HirProgram} {catalog : ModuleCatalog}

/-- An alias is a new symbol, which the scope of the part binds to its name. -/
theorem installAlias_spec {items : ItemFacts}
    {bindings : Option HirItemBindings} {bindings' : Option HirItemBindings} {hir' : HirProgram}
    (h : installAlias items catalog scope wildcard bindings hir name = .ok (bindings', hir')) :
    OnlyAdds hir hir' ∧
      hir'.scopes = hir.scopes.modify scope (·.bind (.item, name) hir.symbols.symbols.length) ∧
      IsAliasOf catalog wildcard name hir'.symbols.symbols hir.symbols.symbols.length := by
  unfold installAlias at h
  cases htarget : wildcard.targets.get name with
  | none => simp [htarget] at h
  | some target =>
    cases hpath : target.catalogPath catalog with
    | none => simp [htarget, hpath] at h
    | some path =>
      simp only [htarget, hpath, SymbolTable.alloc] at h
      cases hbind : bindExternal bindings hir.symbols.symbols.length path wildcard.span target with
      | error message => simp [hbind] at h
      | ok bindings'' =>
        simp only [hbind, Except.ok.injEq, Prod.mk.injEq] at h
        obtain ⟨_, rfl⟩ := h
        obtain ⟨hscopes, hsymbols, hrest, hothers⟩ := bindSource_spec items bindings''
          hir.symbols.symbols.length { hir with
            symbols := { hir.symbols with
              symbols := hir.symbols.symbols ++ [⟨name, .import, .importAlias path .sourceImport⟩] }
            scopes := hir.scopes.modify scope
              (·.bind (.item, name) hir.symbols.symbols.length) } target
        refine ⟨⟨?_, ?_, ?_, ?_⟩, hscopes, target, path, htarget, hpath, ?_⟩
        · rw [hrest]
        · exact ⟨_, hsymbols, fun symbol hsymbol => ⟨name, path, by simpa using hsymbol⟩⟩
        · intro owner hlt name'
          exact (hothers owner (ne_of_lt hlt)).1 name'
        · intro symbol hlt
          exact (hothers symbol (ne_of_lt hlt)).2
        · rw [hsymbols]
          simp

variable {path : ResolvedPath} {scopes : SourceId → Option ScopeId}

section Run
variable {items : ItemFacts} {modules : ModuleIndex} {catalog : ModuleCatalog}
  {wildcards : List ResolvedWildcardImport} {start : HirProgram} {outside : ScopeTree}

/-- The exported names that get an alias, if nothing binds them already. -/
def CountedOnce (wildcards : List ResolvedWildcardImport) (part : ModulePartId) (name : String)
    (listed : ResolvedWildcardImport × String) : Prop :=
  listed.2 = name ∧ listed.1.fromPart = part ∧
    wildcardImportNameCounts wildcards (listed.1.from, part, name) = 1

/-- What a name stands for in a part once some of the exported names are installed. -/
inductive NameInstalled (catalog : ModuleCatalog)
    (wildcards : List ResolvedWildcardImport) (done : List (ResolvedWildcardImport × String))
    (part : ModulePartId) (scope : ScopeId) (name : String) (outside inside : ScopeTree)
    (symbols : List Symbol) : Prop
  | kept : inside.lookup scope name = outside.lookup scope name →
    (outside.lookup scope name = .unresolved →
      ∀ listed ∈ done, ¬ CountedOnce wildcards part name listed) →
    NameInstalled catalog wildcards done part scope name outside inside symbols
  | installed {wildcard : ResolvedWildcardImport} {symbol : SymbolId} :
    outside.lookup scope name = .unresolved → (wildcard, name) ∈ done →
    CountedOnce wildcards part name (wildcard, name) →
    inside.lookup scope name = .resolved symbol → IsAliasOf catalog wildcard name symbols symbol →
    NameInstalled catalog wildcards done part scope name outside inside symbols

structure Installing (modules : ModuleIndex) (catalog : ModuleCatalog)
    (wildcards : List ResolvedWildcardImport) (start : HirProgram) (outside : ScopeTree)
    (done : List (ResolvedWildcardImport × String)) (hir : HirProgram) : Prop where
  adds : OnlyAdds start hir
  names : ∃ inside : ScopeTree, hir.scopes = inside.scopes ∧
    inside.scopes.length = outside.scopes.length ∧
    (∀ id : ℕ, inside.scopes[id]?.bind Scope.parent = outside.scopes[id]?.bind Scope.parent) ∧
    ∀ part scope name, partScopes start modules part = some scope →
      NameInstalled catalog wildcards done part scope name outside inside hir.symbols.symbols

theorem installing_start (htree : start.scopes = outside.scopes) :
    Installing modules catalog wildcards start outside [] start := by
  refine ⟨.refl start, outside, htree, rfl, fun _ => rfl, fun part scope name _ => ?_⟩
  apply NameInstalled.kept rfl
  simp

variable {done : List (ResolvedWildcardImport × String)}

/-- A name that gets no alias, here or because its part has none. -/
theorem Installing.skip (h : Installing modules catalog wildcards start outside done hir)
    {listed : ResolvedWildcardImport × String}
    (hskip : ∀ inside : ScopeTree, hir.scopes = inside.scopes → ∀ part scope name,
      partScopes start modules part = some scope → CountedOnce wildcards part name listed →
      inside.lookup scope name ≠ .unresolved) :
    Installing modules catalog wildcards start outside (done ++ [listed]) hir := by
  obtain ⟨inside, hscopes, hlength, hparents, hnames⟩ := h.names
  refine ⟨h.adds, inside, hscopes, hlength, hparents, fun part scope name hpart => ?_⟩
  cases hnames part scope name hpart with
  | kept hsame hdone =>
    apply NameInstalled.kept hsame
    intro hun other hother
    rcases List.mem_append.mp hother with hother | hother
    · exact hdone hun other hother
    · obtain rfl : other = listed := by simpa using hother
      intro hcounted
      exact hskip inside hscopes part scope name hpart hcounted (hsame.trans hun)
  | installed hun hmem hcounted hlookup halias =>
    exact .installed hun (List.mem_append_left _ hmem) hcounted hlookup halias

theorem IsAliasOf.mono {hir hir' : HirProgram}
    (h : IsAliasOf catalog wildcard name hir.symbols.symbols symbol) (hadds : OnlyAdds hir hir') :
    IsAliasOf catalog wildcard name hir'.symbols.symbols symbol := by
  obtain ⟨target, path, htarget, hpath, hsymbol⟩ := h
  exact ⟨target, path, htarget, hpath, hadds.getElem? hsymbol⟩

theorem Installing.install (houter : ModulesOutermost start) (htree : start.scopes = outside.scopes)
    {hir hir' : HirProgram} (h : Installing modules catalog wildcards start outside done hir)
    (hscope : partScopes start modules wildcard.fromPart = some scope)
    (hcount : wildcardImportNameCounts wildcards (wildcard.from, wildcard.fromPart, name) = 1)
    (hun : lookupName hir scope name = .unresolved) (hadds : OnlyAdds hir hir')
    (hinsert : hir'.scopes =
      hir.scopes.modify scope (·.bind (.item, name) hir.symbols.symbols.length))
    (halias : IsAliasOf catalog wildcard name hir'.symbols.symbols hir.symbols.symbols.length) :
    Installing modules catalog wildcards start outside (done ++ [(wildcard, name)]) hir' := by
  obtain ⟨inside, hscopes, hlength, hparents, hnames⟩ := h.names
  rw [lookupName_eq hscopes] at hun
  have hlt : scope < inside.scopes.length := by
    rw [hlength, ← htree]
    exact partScopes_lt hscope
  let symbol := hir.symbols.symbols.length
  refine ⟨h.adds.trans hadds, inside.insert scope name symbol, ?_, ?_, ?_, ?_⟩
  · rw [hinsert, hscopes]
    rfl
  · rw [← hlength]
    exact List.length_modify ..
  · intro id
    rw [← hparents id]
    exact ScopeTree.parent_insertInNamespace inside scope .item name symbol id
  · intro part scope' name' hpart
    by_cases hsame : part = wildcard.fromPart ∧ name' = name
    · obtain ⟨rfl, rfl⟩ := hsame
      obtain rfl : scope = scope' := Option.some.inj (hscope.symm.trans hpart)
      have hlookup : (inside.insert scope name' symbol).lookup scope name' = .resolved symbol :=
        ScopeTree.lookup_insertInNamespace_self symbol hlt hun
      have hstart : outside.lookup scope name' = .unresolved := by
        cases hnames _ scope name' hpart with
        | kept hkept _ => exact hkept.symm.trans hun
        | installed hstart _ _ _ _ => exact hstart
      exact .installed hstart (by simp) ⟨rfl, rfl, hcount⟩ hlookup halias
    · have hlookup : (inside.insert scope name symbol).lookup scope' name' =
          inside.lookup scope' name' := by
        apply ScopeTree.lookup_insertInNamespace_of_ne
        intro hencloses hkey
        obtain rfl : name' = name := (Prod.mk.inj hkey).2
        have hpart' : wildcard.fromPart ≠ part := fun heq => hsame ⟨heq.symm, rfl⟩
        apply not_encloses_part houter _ hpart' hpart hscope hencloses
        intro id
        rw [hparents, htree]
      cases hnames part scope' name' hpart with
      | kept hkept hdone =>
        apply NameInstalled.kept (hlookup.trans hkept)
        intro hstart other hother
        rcases List.mem_append.mp hother with hother | hother
        · exact hdone hstart other hother
        · obtain rfl : other = (wildcard, name) := by simpa using hother
          intro hcounted
          exact hsame ⟨hcounted.2.1.symm, hcounted.1.symm⟩
      | installed hstart hmem hcounted hresolved halias' =>
        exact .installed hstart (List.mem_append_left _ hmem) hcounted
          (hlookup.trans hresolved) (halias'.mono hadds)

variable {state state' : Option HirItemBindings × HirProgram}

theorem Installing.installName (houter : ModulesOutermost start)
    (htree : start.scopes = outside.scopes)
    (hscope : partScopes start modules wildcard.fromPart = some scope)
    (h : Installing modules catalog wildcards start outside done state.2)
    (hrun : installName items catalog wildcards scope wildcard state name = .ok state') :
    Installing modules catalog wildcards start outside (done ++ [(wildcard, name)]) state'.2 := by
  unfold Resolution.installName at hrun
  by_cases hcount : wildcardImportNameCounts wildcards
      (wildcard.from, wildcard.fromPart, name) ≠ 1
  · rw [if_pos hcount] at hrun
    cases hrun
    apply h.skip
    rintro _ _ _ _ _ _ ⟨rfl, rfl, hcounted⟩
    exact absurd hcounted hcount
  · rw [if_neg hcount] at hrun
    by_cases hlookup : lookupName state.2 scope name ≠ .unresolved
    · rw [if_pos hlookup] at hrun
      cases hrun
      apply h.skip
      rintro inside hscopes _ scope' _ hpart ⟨rfl, rfl, _⟩
      obtain rfl : scope = scope' := Option.some.inj (hscope.symm.trans hpart)
      rwa [← lookupName_eq hscopes]
    · rw [if_neg hlookup] at hrun
      obtain ⟨bindings', hir'⟩ := state'
      obtain ⟨hadds, hinsert, halias⟩ := installAlias_spec hrun
      exact h.install houter htree hscope (not_not.mp hcount) (not_not.mp hlookup) hadds hinsert
        halias

/-- The exported names of a wildcard import, each with the import. -/
def exportsOf (wildcard : ResolvedWildcardImport) : List (ResolvedWildcardImport × String) :=
  wildcard.exportedNames.map fun name => (wildcard, name)

theorem Installing.skipAll (hnone : partScopes start modules wildcard.fromPart = none)
    (names : List String) (h : Installing modules catalog wildcards start outside done hir) :
    Installing modules catalog wildcards start outside
      (done ++ names.map fun name => (wildcard, name)) hir := by
  induction names generalizing done with
  | nil => simpa using h
  | cons name names ih =>
    have hskip : Installing modules catalog wildcards start outside
        (done ++ [(wildcard, name)]) hir := by
      apply h.skip
      rintro _ _ _ _ _ hpart ⟨rfl, rfl, _⟩
      rw [hnone] at hpart
      cases hpart
    simpa using ih hskip

theorem Installing.installWildcard (houter : ModulesOutermost start)
    (htree : start.scopes = outside.scopes)
    (h : Installing modules catalog wildcards start outside done state.2)
    (hrun : installWildcard items catalog wildcards (partScopes start modules) state wildcard =
      .ok state') :
    Installing modules catalog wildcards start outside (done ++ exportsOf wildcard) state'.2 := by
  unfold Resolution.installWildcard at hrun
  cases hscope : partScopes start modules wildcard.fromPart with
  | none =>
    rw [hscope] at hrun
    cases hrun
    exact h.skipAll hscope wildcard.exportedNames
  | some scope =>
    rw [hscope] at hrun
    change Installing modules catalog wildcards start outside
      (done ++ ([] ++ wildcard.exportedNames).map fun name => (wildcard, name)) state'.2
    apply Lib.foldlM_ok_complete (p := fun names state => Installing modules catalog wildcards start
      outside (done ++ names.map fun name => (wildcard, name)) state.2) _ (by simpa using h) hrun
    intro names state name state' hstate hstep
    have hnext := hstate.installName houter htree hscope hstep
    simpa using hnext

theorem installing_run (houter : ModulesOutermost start) (htree : start.scopes = outside.scopes)
    {bindings : Option HirItemBindings} {state : Option HirItemBindings × HirProgram}
    (hrun : wildcards.foldlM (installWildcard items catalog wildcards (partScopes start modules))
      (bindings, start) = .ok state) :
    Installing modules catalog wildcards start outside (wildcards.flatMap exportsOf) state.2 := by
  change Installing modules catalog wildcards start outside
    (([] ++ wildcards).flatMap exportsOf) state.2
  apply Lib.foldlM_ok_complete (p := fun done state => Installing modules catalog wildcards start
    outside (done.flatMap exportsOf) state.2) _ (installing_start htree) hrun
  intro done state wildcard state' hstate hstep
  have hnext := hstate.installWildcard houter htree hstep
  simpa using hnext

/-- A name of a part stands for the alias of the only export of that name, if nothing bound it,
and else for what it stood for. -/
theorem installing_lookup (hfrom : FromParts modules wildcards)
    (h : Installing modules catalog wildcards start outside (wildcards.flatMap exportsOf) hir)
    (hpart : partScopes start modules part = some scope) (name : String) :
    (∀ wildcard, outside.lookup scope name = .unresolved →
      OnlyExport wildcards part name wildcard → ∃ symbol,
        lookupName hir scope name = .resolved symbol ∧
          IsAliasOf catalog wildcard name hir.symbols.symbols symbol) ∧
      ((outside.lookup scope name = .unresolved →
        ∀ wildcard, ¬ OnlyExport wildcards part name wildcard) →
        lookupName hir scope name = outside.lookup scope name) := by
  obtain ⟨inside, hscopes, _, _, hnames⟩ := h.names
  rw [lookupName_eq hscopes]
  have hexports : ∀ wildcard, (wildcard, name) ∈ wildcards.flatMap exportsOf ↔
      wildcard ∈ wildcards ∧ name ∈ wildcard.exportedNames := by
    intro wildcard
    simp [exportsOf]
  cases hnames part scope name hpart with
  | kept hsame hdone =>
    refine ⟨?_, fun _ => hsame⟩
    intro wildcard hun honly
    have hmem : (wildcard, name) ∈ wildcards.flatMap exportsOf :=
      (hexports wildcard).mpr ⟨honly.mem, honly.2.1⟩
    obtain rfl := honly.1
    have hcount := (wildcardImportNameCounts_eq_one_iff hfrom honly.mem honly.2.1).mpr honly
    exact absurd ⟨rfl, rfl, hcount⟩ (hdone hun _ hmem)
  | @installed other symbol hun hmem hcounted hlookup halias =>
    obtain ⟨hother, hname⟩ := (hexports other).mp hmem
    obtain ⟨_, rfl, hcount⟩ := hcounted
    have honly := (wildcardImportNameCounts_eq_one_iff hfrom hother hname).mp hcount
    constructor
    · intro wildcard _ honly'
      obtain rfl := honly'.unique hother rfl hname
      exact ⟨symbol, hlookup, halias⟩
    · intro hnone
      exact absurd honly (hnone hun other)

/-! The paths of a program. -/

theorem InPart.sourceScopes (h : InPart start modules path part scope) :
    sourceScopes start modules (lexicalSource start path.span.source) = some scope :=
  sourceScopes_eq_some_iff.mpr ⟨part, h⟩

theorem Unbound.lookup (h : Unbound outside scope name) :
    outside.lookup scope name = .unresolved := by
  obtain ⟨use, huse, hnone⟩ := h
  apply ScopeTree.lookup_eq_unresolved_iff.mpr
  intro outer ho
  exact hnone outer (Relation.ReflTransGen.trans huse ho)

theorem unbound_of_lookup (h : outside.lookup scope name = .unresolved) :
    Unbound outside scope name :=
  ⟨scope, .refl, ScopeTree.lookup_eq_unresolved_iff.mp h⟩

theorem IsAliasOf.isSourceImportAlias
    (h : IsAliasOf catalog wildcard name hir.symbols.symbols symbol) :
    isSourceImportAlias hir symbol := by
  obtain ⟨_, _, _, _, hsymbol⟩ := h
  simp [Resolution.isSourceImportAlias, hsymbol]

theorem OnlyAdds.lexicalSource (h : OnlyAdds start hir) (source : SourceId) :
    lexicalSource hir source = lexicalSource start source := by
  rw [h.rest]
  rfl

theorem OnlyAdds.isSourceImportAlias (h : OnlyAdds start hir)
    (hlt : symbol < start.symbols.symbols.length) :
    isSourceImportAlias hir symbol = isSourceImportAlias start symbol := by
  have hget := List.getElem?_eq_getElem hlt
  rw [Resolution.isSourceImportAlias, Resolution.isSourceImportAlias, h.getElem? hget, hget]

theorem aliasResolution_of_lookup {rest : List String} (hun : path.resolution = .unresolved)
    (hsegments : path.segments = name :: rest)
    (hscope : scopes (lexicalSource hir path.span.source) = some scope)
    (hlookup : lookupName hir scope name = .resolved symbol)
    (halias : isSourceImportAlias hir symbol) :
    wildcardAliasResolution hir scopes path = some (throughAlias symbol rest) := by
  simp [wildcardAliasResolution, hun, hsegments, hscope, hlookup, halias]

theorem aliasResolution_eq_some {resolution : ResolveResult}
    (h : wildcardAliasResolution hir scopes path = some resolution) :
    ∃ name rest scope symbol, path.resolution = .unresolved ∧ path.segments = name :: rest ∧
      scopes (lexicalSource hir path.span.source) = some scope ∧
      lookupName hir scope name = .resolved symbol ∧ isSourceImportAlias hir symbol ∧
      resolution = throughAlias symbol rest := by
  unfold wildcardAliasResolution at h
  cases hun : path.resolution with
  | unresolved =>
    cases hsegments : path.segments with
    | nil => simp [hun, hsegments] at h
    | cons name rest =>
      cases hscope : scopes (lexicalSource hir path.span.source) with
      | none => simp [hun, hsegments, hscope] at h
      | some scope =>
        cases hlookup : lookupName hir scope name with
        | resolved symbol =>
          simp only [hun, hsegments, hscope, hlookup] at h
          by_cases halias : isSourceImportAlias hir symbol
          · rw [if_pos halias] at h
            exact ⟨name, rest, scope, symbol, rfl, rfl, rfl, hlookup, halias,
              (Option.some.inj h).symm⟩
          · rw [if_neg halias] at h
            cases h
        | _ => simp [hun, hsegments, hscope, hlookup] at h
  | _ => simp [hun] at h

section Paths
variable {hir : HirProgram}
  (hinstalled : Installing modules catalog wildcards start outside (wildcards.flatMap exportsOf) hir)
  (hscoped : Scoped start outside) (hfrom : FromParts modules wildcards)
include hinstalled hfrom

theorem WildcardReference.resolution {rest : List String}
    (h : WildcardReference start outside modules wildcards path name rest wildcard) :
    ∃ symbol, IsAliasOf catalog wildcard name hir.symbols.symbols symbol ∧
      wildcardAliasResolution hir (sourceScopes start modules) path =
        some (throughAlias symbol rest) := by
  obtain ⟨part, scope, hpart, hunbound, honly⟩ := h.exported
  obtain ⟨symbol, hlookup, halias⟩ :=
    (installing_lookup hfrom hinstalled hpart.2 name).1 wildcard hunbound.lookup honly
  refine ⟨symbol, halias, ?_⟩
  apply aliasResolution_of_lookup h.unresolved h.segments _ hlookup halias.isSourceImportAlias
  rw [hinstalled.adds.lexicalSource]
  exact hpart.sourceScopes

include hscoped

theorem ImportReference.resolution {rest : List String}
    (h : ImportReference start outside modules wildcards path name rest symbol) :
    wildcardAliasResolution hir (sourceScopes start modules) path =
      some (throughAlias symbol rest) := by
  obtain ⟨part, scope, hpart, hlookup⟩ := h.imported
  have hkept : lookupName hir scope name = outside.lookup scope name := by
    apply (installing_lookup hfrom hinstalled hpart.2 name).2
    intro hun
    rw [hlookup] at hun
    cases hun
  apply aliasResolution_of_lookup h.unresolved h.segments _ (hkept.trans hlookup)
  · rw [hinstalled.adds.isSourceImportAlias (hscoped.allocated scope name symbol hlookup)]
    exact h.source
  · rw [hinstalled.adds.lexicalSource]
    exact hpart.sourceScopes

/-- Only the two kinds of references are resolved. -/
theorem reference_of_resolution (hne : wildcards ≠ []) {resolution : ResolveResult}
    (h : wildcardAliasResolution hir (sourceScopes start modules) path = some resolution) :
    (∃ name rest wildcard,
      WildcardReference start outside modules wildcards path name rest wildcard) ∨
      ∃ name rest symbol,
        ImportReference start outside modules wildcards path name rest symbol := by
  obtain ⟨name, rest, scope, symbol, hun, hsegments, hscope, hlookup, halias, _⟩ :=
    aliasResolution_eq_some h
  rw [hinstalled.adds.lexicalSource] at hscope
  obtain ⟨part, hpart⟩ := sourceScopes_eq_some_iff.mp hscope
  by_cases honly : outside.lookup scope name = .unresolved ∧
      ∃ wildcard, OnlyExport wildcards part name wildcard
  · obtain ⟨hout, wildcard, honly⟩ := honly
    exact .inl ⟨name, rest, wildcard, hun, hsegments, part, scope, hpart, unbound_of_lookup hout,
      honly⟩
  · have hkept : lookupName hir scope name = outside.lookup scope name := by
      apply (installing_lookup hfrom hinstalled hpart.2 name).2
      intro hout wildcard hwildcard
      exact honly ⟨hout, wildcard, hwildcard⟩
    have hold : outside.lookup scope name = .resolved symbol := hkept.symm.trans hlookup
    rw [hinstalled.adds.isSourceImportAlias (hscoped.allocated scope name symbol hold)] at halias
    exact .inr ⟨name, rest, symbol, hun, hsegments, ⟨part, scope, hpart, hold⟩, halias, hne⟩

end Paths

end Run

theorem mapExprPaths_id (expr : HirExpr) : mapExprPaths (fun path => path) expr = expr := by
  cases expr with
  | reflect target => cases target <;> rfl
  | _ => rfl

theorem mapTypePath_id (ty : HirType) : mapTypePath (fun path => path) ty = ty := by
  cases ty <;> rfl

theorem mapSymbolBounds_id (symbol : Symbol) :
    mapSymbolBounds (fun path => path) symbol = symbol := by
  obtain ⟨name, kind, definition⟩ := symbol
  cases definition with
  | typeParam owner bounds =>
    have hid : mapBoundPath (fun path => path) = id := rfl
    simp [mapSymbolBounds, hid]
  | _ => rfl

theorem throughAlias_ne_unresolved (symbol : SymbolId) (rest : List String) :
    throughAlias symbol rest ≠ .unresolved := by
  cases rest <;> simp [throughAlias]

theorem wildcardAliasPath_of_resolution {resolution : ResolveResult}
    (h : wildcardAliasResolution hir scopes path = some resolution) :
    wildcardAliasPath hir scopes path = { path with resolution } := by
  rw [wildcardAliasPath, h]

theorem wildcardAliasPath_ne_iff : wildcardAliasPath hir scopes path ≠ path ↔
      (wildcardAliasResolution hir scopes path).isSome := by
  cases h : wildcardAliasResolution hir scopes path with
  | none => simp [wildcardAliasPath, h]
  | some resolution =>
    obtain ⟨name, rest, scope, symbol, hun, _, _, _, _, rfl⟩ := aliasResolution_eq_some h
    rw [wildcardAliasPath_of_resolution h]
    simp only [Option.isSome_some, iff_true]
    intro heq
    have hres := congrArg ResolvedPath.resolution heq
    exact throughAlias_ne_unresolved symbol rest (hres.trans hun)

theorem pruned_diagnostics (hir : HirProgram) (scopes : SourceId → Option ScopeId)
    (references : List ResolvedPath) (diagnostics : List Diagnostic) :
    Pruned (wildcardAliasPath hir scopes) references diagnostics
      (pruneResolvedWildcardDiagnostics diagnostics
        ((references.filter (wildcardAliasResolution hir scopes · |>.isSome)).map
          ResolvedPath.span)) := by
  refine ⟨List.filter_sublist, fun diagnostic => ?_⟩
  simp only [pruneResolvedWildcardDiagnostics, List.mem_filter, wildcardAliasPath_ne_iff]
  apply and_congr_right
  intro _
  simp only [Bool.or_eq_true, bne_iff_ne, Bool.not_eq_true', List.contains_eq_mem,
    decide_eq_false_iff_not, List.mem_map, List.mem_filter]
  constructor
  · rintro (hcode | hspan) ⟨hcode', path, hmem, heq, hsome⟩
    · exact hcode hcode'
    · exact hspan ⟨path, ⟨hmem, hsome⟩, heq⟩
  · intro h
    by_cases hcode : diagnostic.code = .unresolvedName
    · right
      rintro ⟨path, ⟨hmem, hsome⟩, heq⟩
      exact h ⟨hcode, path, hmem, heq, hsome⟩
    · exact .inl hcode

theorem OnlyAdds.aliasReferences {start hir : HirProgram} (h : OnlyAdds start hir) :
    aliasReferences hir = aliasReferences start := by
  obtain ⟨added, hadded, hkind⟩ := h.symbols
  have hbounds : added.flatMap boundReferences = [] := by
    apply List.flatMap_eq_nil_iff.mpr
    intro symbol hsymbol
    obtain ⟨name, path, rfl⟩ := hkind symbol hsymbol
    rfl
  have hexprs : hir.exprs = start.exprs := by rw [h.rest]
  have htypes : hir.types = start.types := by rw [h.rest]
  rw [Resolution.aliasReferences, hadded, hexprs, htypes, List.flatMap_append, hbounds,
    List.append_nil]
  rfl

theorem IsAliasOf.map {symbols : List Symbol}
    (h : IsAliasOf catalog wildcard name symbols symbol) (f : ResolvedPath → ResolvedPath) :
    IsAliasOf catalog wildcard name (symbols.map (mapSymbolBounds f)) symbol := by
  obtain ⟨target, path, htarget, hpath, hsymbol⟩ := h
  refine ⟨target, path, htarget, hpath, ?_⟩
  rw [List.getElem?_map, hsymbol]
  rfl

theorem aliasesInstalled_nil (hir : HirProgram) (tree : ScopeTree) (modules : ModuleIndex)
    (catalog : ModuleCatalog) (diagnostics : List Diagnostic) :
    AliasesInstalled hir tree modules catalog [] diagnostics (fun path => path) diagnostics hir := by
  have hnone : ∀ path name rest wildcard,
      ¬ WildcardReference hir tree modules [] path name rest wildcard := by
    intro path name rest wildcard h
    obtain ⟨_, _, _, _, honly⟩ := h.exported
    exact absurd honly.mem List.not_mem_nil
  constructor
  case single =>
    intro path _ name wildcard h
    exact absurd h (hnone path name [] wildcard)
  case wildcard =>
    intro path name rest wildcard h
    exact absurd h (hnone path name rest wildcard)
  case imported =>
    intro path name rest symbol h
    exact absurd rfl h.ran
  case unchanged =>
    intro path _ _
    rfl
  case exprs =>
    intro id expr h _
    rw [h, mapExprPaths_id]
  case types =>
    intro id ty h _
    rw [h, mapTypePath_id]
  case symbols =>
    intro id symbol h
    rw [h, mapSymbolBounds_id]
  case pruned => exact ⟨List.Sublist.refl _, by simp⟩
  case context => exact ⟨List.Sublist.refl _, by simp⟩
  all_goals
    intros
    first | rfl | assumption

theorem Pruned.ne_span {resolve : ResolvedPath → ResolvedPath} {references : List ResolvedPath}
    {before after : List Diagnostic} {diagnostic : Diagnostic}
    (h : Pruned resolve references before after) (hmem : path ∈ references)
    (hchanged : resolve path ≠ path) (hdiagnostic : diagnostic ∈ after)
    (hcode : diagnostic.code = .unresolvedName) : diagnostic.span ≠ path.span := by
  intro hspan
  have hkept := (h.2 diagnostic).mp hdiagnostic
  exact hkept.2 ⟨hcode, path, hmem, hspan.symm, hchanged⟩

section Installed
variable {hir installed : HirProgram} {tree : ScopeTree} {modules : ModuleIndex}
  {wildcards : List ResolvedWildcardImport}
  (h : Installing modules catalog wildcards hir tree (wildcards.flatMap exportsOf) installed)
  (hfrom : FromParts modules wildcards)
include h

theorem Installing.pruned (diagnostics : List Diagnostic) :
    Pruned (wildcardAliasPath installed (sourceScopes hir modules)) (aliasReferences hir)
      diagnostics (pruneResolvedWildcardDiagnostics diagnostics
        (resolveWildcardAliasPaths installed (sourceScopes hir modules)).2) := by
  rw [← h.adds.aliasReferences]
  exact pruned_diagnostics installed _ _ diagnostics

include hfrom

theorem WildcardReference.aliased {rest : List String}
    (hpath : WildcardReference hir tree modules wildcards path name rest wildcard) :
    ∃ symbol, IsAliasOf catalog wildcard name
        (resolveWildcardAliasPaths installed (sourceScopes hir modules)).1.symbols.symbols symbol ∧
      wildcardAliasPath installed (sourceScopes hir modules) path =
        { path with resolution := throughAlias symbol rest } := by
  obtain ⟨symbol, halias, hres⟩ := hpath.resolution h hfrom
  exact ⟨symbol, halias.map _, wildcardAliasPath_of_resolution hres⟩

theorem Installing.unchanged (hscoped : Scoped hir tree) (hne : wildcards ≠ [])
    (hwildcard : ∀ name rest wildcard,
      ¬ WildcardReference hir tree modules wildcards path name rest wildcard)
    (himport : ∀ name rest symbol,
      ¬ ImportReference hir tree modules wildcards path name rest symbol) :
    wildcardAliasPath installed (sourceScopes hir modules) path = path := by
  by_contra hchanged
  obtain ⟨resolution, hres⟩ := Option.isSome_iff_exists.mp (wildcardAliasPath_ne_iff.mp hchanged)
  rcases reference_of_resolution h hscoped hfrom hne hres with
    ⟨name, rest, wildcard, hpath⟩ | ⟨name, rest, symbol, hpath⟩
  · exact hwildcard name rest wildcard hpath
  · exact himport name rest symbol hpath

theorem Installing.aliasesInstalled (hscoped : Scoped hir tree) (hne : wildcards ≠ [])
    {diagnostics : List Diagnostic} {resolved : HirProgram × List Span}
    (hresolved : resolveWildcardAliasPaths installed (sourceScopes hir modules) = resolved) :
    AliasesInstalled hir tree modules catalog wildcards diagnostics
      (wildcardAliasPath installed (sourceScopes hir modules))
      (pruneResolvedWildcardDiagnostics diagnostics resolved.2)
      { resolved.1 with
        diagnostics := pruneResolvedWildcardDiagnostics resolved.1.diagnostics resolved.2 } := by
  subst hresolved
  have hrest := h.adds.rest
  constructor
  case single =>
    intro path hmem name wildcard hpath
    obtain ⟨symbol, halias, hres⟩ := hpath.aliased h hfrom
    refine ⟨⟨symbol, halias, hres⟩, ?_⟩
    have hchanged : wildcardAliasPath installed (sourceScopes hir modules) path ≠ path := by
      intro heq
      have hun := congrArg ResolvedPath.resolution (hres.symm.trans heq)
      exact throughAlias_ne_unresolved symbol [] (hun.trans hpath.unresolved)
    intro diagnostic hdiagnostic
    rcases List.mem_append.mp hdiagnostic with hd | hd
    · exact (h.pruned _).ne_span hmem hchanged hd
    · exact (h.pruned _).ne_span hmem hchanged hd
  case wildcard =>
    intro path name rest wildcard hpath
    exact hpath.aliased h hfrom
  case imported =>
    intro path name rest symbol hpath
    exact wildcardAliasPath_of_resolution (hpath.resolution h hscoped hfrom)
  case unchanged =>
    intro path hwildcard himport
    exact h.unchanged hfrom hscoped hne hwildcard himport
  case exprs =>
    intro id expr hexpr _
    have hexprs : installed.exprs = hir.exprs := by rw [hrest]
    dsimp only [resolveWildcardAliasPaths]
    rw [List.getElem?_map, hexprs, hexpr, Option.map_some]
  case types =>
    intro id ty hty _
    have htypes : installed.types = hir.types := by rw [hrest]
    dsimp only [resolveWildcardAliasPaths]
    rw [List.getElem?_map, htypes, hty, Option.map_some]
  case symbols =>
    intro id symbol hsymbol
    dsimp only [resolveWildcardAliasPaths]
    rw [List.getElem?_map, h.adds.getElem? hsymbol, Option.map_some]
  case pats =>
    intro id pat hpat _
    have hpats : installed.pats = hir.pats := by rw [hrest]
    exact hpats ▸ hpat
  case arms =>
    intro id arm harm _
    have harms : installed.handlerArms = hir.handlerArms := by rw [hrest]
    exact harms ▸ harm
  case members => exact h.adds.members
  case targets => exact h.adds.targets
  case pruned =>
    have hprogram : installed.diagnostics = hir.diagnostics := by rw [hrest]
    rw [← hprogram]
    exact h.pruned installed.diagnostics
  case context => exact h.pruned diagnostics

end Installed

/-- The run installs an alias for each name that one wildcard import of a part exports and
nothing binds, and resolves through it the references to the name in the part. -/
theorem installWildcardImportAliases_spec {items : ItemFacts} {context context' : ProjectContext}
    {hir hir' : HirProgram} {tree : ScopeTree} {wildcards : List ResolvedWildcardImport}
    {modules : ModuleIndex}
    (hmodules : context.modules = some modules) (hcatalog : context.moduleCatalog = some catalog)
    (hscoped : Scoped hir tree) (hfrom : FromParts modules wildcards)
    (hrun : installWildcardImportAliases items context hir wildcards = .ok (context', hir')) :
    ∃ resolve, AliasesInstalled hir tree modules catalog wildcards context.diagnostics resolve
      context'.diagnostics hir' := by
  unfold installWildcardImportAliases at hrun
  by_cases hne : wildcards = []
  · subst hne
    cases hrun
    exact ⟨_, aliasesInstalled_nil hir tree modules catalog context.diagnostics⟩
  · have hempty : wildcards.isEmpty = false := List.isEmpty_eq_false_iff.mpr hne
    simp only [hempty, Bool.false_eq_true, if_false, hmodules, hcatalog] at hrun
    cases hfold : wildcards.foldlM
        (installWildcard items catalog wildcards (partScopes hir modules))
        (context.hirItemBindings, hir) with
    | error message => simp [hfold] at hrun
    | ok state =>
      have hinstalling := installing_run hscoped.outermost hscoped.scopes hfold
      rw [hfold] at hrun
      cases hrun
      exact ⟨_, hinstalling.aliasesInstalled hfrom hscoped hne rfl⟩

def thingSpan (start : ℕ) : Span := ⟨0, start, start + 5⟩

/-- The scope of a module and, inside of it, the scope of its only part. -/
def thingTree : ScopeTree :=
  (ScopeTree.empty.alloc none (.module 0) (thingSpan 0) (by simp)).alloc (some 0) (.module 0)
    (thingSpan 0) (by simp [ScopeTree.alloc, ScopeTree.empty])

/-- Three uses of `Thing` that lowering left unresolved. -/
def thingProgram : HirProgram :=
  { HirProgram.empty with
    modules := [0]
    modulesArena := [⟨[], 0, some ["app"]⟩]
    scopes := thingTree.scopes
    exprs := [.path ⟨["Thing"], .unresolved, thingSpan 10⟩,
      .path ⟨["Thing", "part"], .unresolved, thingSpan 20⟩,
      .record (some ⟨["Thing"], .unresolved, thingSpan 30⟩) []]
    diagnostics := [⟨.unresolvedName, thingSpan 10, ""⟩, ⟨.unresolvedName, thingSpan 20, ""⟩,
      ⟨.unresolvedName, thingSpan 30, ""⟩] }

def thingModules : ModuleIndex :=
  ⟨[⟨["app"], none⟩, ⟨["lib"], none⟩], [⟨0, 0, [⟨.private, .wildcard ["lib"] (thingSpan 0)⟩]⟩],
    by simp⟩

def thingCatalog : ModuleCatalog where
  dependencyNamespaces := ∅
  modules := [⟨["app"], .projectSource 0, ∅⟩,
    ⟨["lib"], .projectSource 1, Map.ofList [("Thing", ⟨"Thing", .public, .source 1 0⟩)]⟩]

def thingContext : ProjectContext := ⟨some thingModules, some thingCatalog, none, []⟩

def thingImport : ResolvedWildcardImport where
  «from» := 0
  fromPart := 0
  targetModule := .source 1 1
  exportedNames := ["Thing"]
  targets := Map.ofList [("Thing", .sourceItem 1 1 "Thing" 0)]
  visibility := .private
  span := thingSpan 0
  distinct := by simp

def noItems : ItemFacts := ⟨fun _ => none, fun _ => []⟩

theorem thingTree_unresolved (scope : ScopeId) (name : String) :
    thingTree.lookup scope name = .unresolved := by
  apply ScopeTree.lookup_eq_unresolved_iff.mpr
  intro outer _ hbinds
  apply hbinds
  match outer with
  | 0 => rfl
  | 1 => rfl
  | _ + 2 => rfl

theorem thingProgram_scoped : Scoped thingProgram thingTree where
  scopes := rfl
  outermost := by
    intro data hdata
    have h : data = ⟨[], 0, some ["app"]⟩ := by simpa [thingProgram] using hdata
    rw [h]
    rfl
  allocated := by
    intro scope name symbol h
    rw [thingTree_unresolved] at h
    cases h

theorem thingImport_fromParts : FromParts thingModules [thingImport] := by
  intro wildcard hwildcard
  obtain rfl : wildcard = thingImport := by simpa using hwildcard
  rfl

theorem thing_wildcardReference (rest : List String) (start : ℕ) :
    WildcardReference thingProgram thingTree thingModules [thingImport]
      ⟨"Thing" :: rest, .unresolved, thingSpan start⟩ "Thing" rest thingImport where
  unresolved := rfl
  segments := rfl
  exported := ⟨0, 1, ⟨rfl, rfl⟩, unbound_of_lookup (thingTree_unresolved 1 "Thing"), rfl,
    List.mem_singleton_self _, [], [], rfl, by simp⟩

theorem installWildcardImportAliases_thing : ∃ context' hir',
    installWildcardImportAliases noItems thingContext thingProgram [thingImport] =
      .ok (context', hir') ∧
    ∃ resolve, AliasesInstalled thingProgram thingTree thingModules thingCatalog [thingImport]
      thingContext.diagnostics resolve context'.diagnostics hir' := by
  have hok : ∃ result, installWildcardImportAliases noItems thingContext thingProgram
      [thingImport] = .ok result := ⟨_, rfl⟩
  obtain ⟨⟨context', hir'⟩, hrun⟩ := hok
  exact ⟨context', hir', hrun, installWildcardImportAliases_spec rfl rfl thingProgram_scoped
    thingImport_fromParts hrun⟩

/-- A path of two segments changes, and a record path whose name the import exports does not. -/
theorem not_only_single_segments : ∃ context' hir',
    installWildcardImportAliases noItems thingContext thingProgram [thingImport] =
      .ok (context', hir') ∧
    thingProgram.exprs[1]? = some (.path ⟨["Thing", "part"], .unresolved, thingSpan 20⟩) ∧
    hir'.exprs[1]? = some (.path ⟨["Thing", "part"],
      .partiallyResolved ⟨some 0, 1, ["part"], .packageResolverRequired⟩, thingSpan 20⟩) ∧
    WildcardReference thingProgram thingTree thingModules [thingImport]
      ⟨["Thing"], .unresolved, thingSpan 30⟩ "Thing" [] thingImport ∧
    hir'.exprs[2]? = some (.record (some ⟨["Thing"], .unresolved, thingSpan 30⟩) []) ∧
    hir'.diagnostics = [⟨.unresolvedName, thingSpan 30, ""⟩] :=
  ⟨_, _, rfl, rfl, rfl, thing_wildcardReference [] 30, rfl, rfl⟩

end EtasFrontend.Resolution
