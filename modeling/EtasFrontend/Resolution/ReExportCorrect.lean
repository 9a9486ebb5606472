import EtasFrontend.Lib.Fallible
import EtasFrontend.Resolution.ReExport
import EtasFrontend.Lib.Rounds

/-! The closure of export tables spreads items along public imports, one step a round. -/
namespace EtasFrontend.Resolution
open Lib Hir

/-- A name in the export table of a module. -/
abbrev ExportNode := ModuleKey × String

def exportEntry (catalog : ModuleCatalog) (node : ExportNode) : Option ModuleExport :=
  catalog.modules[node.1]?.bind (·.exports.get node.2)

def exportTarget (catalog : ModuleCatalog) (node : ExportNode) : Option ModuleExportTarget :=
  (exportEntry catalog node).map (·.target)

/-- A private item of a module is seen by its own imports only. -/
def seenBy (catalog : ModuleCatalog) (importer : ModuleId) (target : ResolvedModuleTarget)
    (name : String) : Bool :=
  match exportEntry catalog (target.key, name) with
  | some item => item.visibility == .public || isImporter importer target
  | none => true

/-- The items that a declaration imports by name: the local name, the module and the item. -/
def explicitItems (catalog : ModuleCatalog) (package : Option ExternalPackageId)
    (decl : ImportDecl) : List (String × ResolvedModuleTarget × String) :=
  match decl.tree with
  | .single path rename =>
    match resolveModule catalog package path, splitModuleMemberPath catalog package path with
    | .missing, some (modulePath, member) =>
      (resolveModuleTarget catalog package modulePath).toList.map fun target =>
        (rename.getD member, target, member)
    | _, _ => []
  | .group path items =>
    (resolveModuleTarget catalog package path).toList.flatMap fun target =>
      items.map fun item => (item.rename.getD item.name, target, item.name)
  | _ => []

/-- The modules whose items a declaration imports under their own names. -/
def wildcardModules (catalog : ModuleCatalog) (package : Option ExternalPackageId)
    (decl : ImportDecl) : List ResolvedModuleTarget :=
  match decl.tree with
  | .wildcard path _ => (resolveModuleTarget catalog package path).toList
  | _ => []

/-- Where the names of a module come from through its public imports. -/
def reExportGraph (modules : ModuleIndex) (catalog : ModuleCatalog) :
    Spread ExportNode ModuleExportTarget where
  own := exportTarget catalog
  preferred node := (publicImports modules).flatMap fun declared =>
    (explicitItems catalog declared.1.package declared.2).filterMap fun item =>
      if catalog.sourceModuleKey declared.1.module = some node.1 ∧ item.1 = node.2 ∧
          seenBy catalog declared.1.module item.2.1 item.2.2 then some (item.2.1.key, item.2.2)
      else none
  others node := (publicImports modules).flatMap fun declared =>
    (wildcardModules catalog declared.1.package declared.2).filterMap fun target =>
      if catalog.sourceModuleKey declared.1.module = some node.1 ∧
          seenBy catalog declared.1.module target node.2 then some (target.key, node.2)
      else none

/-- Every export is filed under its name. -/
def WellNamed (catalog : ModuleCatalog) : Prop :=
  ∀ node item, exportEntry catalog node = some item → item.name = node.2

/-! Rounds leave the modules and their paths alone. -/

def ModuleRecord.shape (record : ModuleRecord) : ModulePath × ModuleOrigin :=
  (record.path, record.origin)

structure SameShape (catalog catalog' : ModuleCatalog) : Prop where
  namespaces : catalog'.dependencyNamespaces = catalog.dependencyNamespaces
  modules : catalog'.modules.map ModuleRecord.shape = catalog.modules.map ModuleRecord.shape

section Shape
variable {catalog catalog' : ModuleCatalog}

theorem SameShape.refl (catalog : ModuleCatalog) : SameShape catalog catalog := ⟨rfl, rfl⟩

section
variable (h : SameShape catalog catalog')
include h

theorem SameShape.trans {catalog'' : ModuleCatalog} (h' : SameShape catalog' catalog'') :
    SameShape catalog catalog'' :=
  ⟨h'.namespaces.trans h.namespaces, h'.modules.trans h.modules⟩

theorem SameShape.length : catalog'.modules.length = catalog.modules.length := by
  simpa using congrArg List.length h.modules

theorem SameShape.map_eq {β : Type} (f : ModuleRecord → β)
    (hf : ∀ record record' : ModuleRecord, record'.shape = record.shape → f record' = f record)
    (key : ModuleKey) : catalog'.modules[key]?.map f = catalog.modules[key]?.map f := by
  have hget := congrArg (fun l : List (ModulePath × ModuleOrigin) => l[key]?) h.modules
  simp only [List.getElem?_map] at hget
  cases hold : catalog.modules[key]? with
  | none =>
    rw [hold, Option.map_none, Option.map_eq_none_iff] at hget
    rw [hget]
  | some record =>
    rw [hold, Option.map_some] at hget
    obtain ⟨record', hrecord', hshape⟩ := Option.map_eq_some_iff.mp hget
    rw [hrecord', Option.map_some, Option.map_some, hf record record' hshape]

theorem SameShape.any_eq (f : ModuleRecord → Bool)
    (hf : ∀ record record' : ModuleRecord, record'.shape = record.shape → f record' = f record)
    (key : ModuleKey) : catalog'.modules[key]?.any f = catalog.modules[key]?.any f := by
  have hmap := h.map_eq f hf key
  cases hold : catalog.modules[key]? with
  | none =>
    rw [hold, Option.map_none, Option.map_eq_none_iff] at hmap
    rw [hmap]
  | some record =>
    rw [hold, Option.map_some] at hmap
    obtain ⟨record', hrecord', hf'⟩ := Option.map_eq_some_iff.mp hmap
    rw [hrecord', Option.any_some, Option.any_some, hf']

theorem SameShape.moduleKeys (path : ModulePath) :
    catalog'.moduleKeys path = catalog.moduleKeys path := by
  unfold ModuleCatalog.moduleKeys
  rw [h.length]
  apply List.filter_congr
  intro key _
  apply h.any_eq
  intro record record' hshape
  rw [(Prod.mk.inj hshape).1]

end

variable (h : SameShape catalog catalog')
include h

section
variable (package : Option ExternalPackageId)

theorem SameShape.resolveModule (path : ModulePath) :
    resolveModule catalog' package path = resolveModule catalog package path := by
  have hoverlay : ∀ keys, effectiveCatalogKeys catalog' keys = effectiveCatalogKeys catalog keys := by
    intro keys
    have hfilter : (keys.filter fun key => catalog'.modules[key]?.any (·.origin.isOverlay)) =
        keys.filter fun key => catalog.modules[key]?.any (·.origin.isOverlay) := by
      apply List.filter_congr
      intro key _
      apply h.any_eq
      intro record record' hshape
      rw [(Prod.mk.inj hshape).2]
    simp only [effectiveCatalogKeys, hfilter]
  have htarget : ∀ key, catalog'.modules[key]?.map (ModuleRecord.resolvedTarget key) =
      catalog.modules[key]?.map (ModuleRecord.resolvedTarget key) := by
    intro key
    apply h.map_eq
    intro record record' hshape
    simp only [ModuleRecord.resolvedTarget, (Prod.mk.inj hshape).1, (Prod.mk.inj hshape).2]
  simp only [Resolution.resolveModule, h.namespaces, h.moduleKeys, hoverlay, htarget]

theorem SameShape.resolveModuleTarget (path : ModulePath) :
    resolveModuleTarget catalog' package path = resolveModuleTarget catalog package path := by
  rw [Resolution.resolveModuleTarget, Resolution.resolveModuleTarget, h.resolveModule]

theorem SameShape.splitModuleMemberPath (path : ModulePath) :
    splitModuleMemberPath catalog' package path = splitModuleMemberPath catalog package path := by
  simp only [Resolution.splitModuleMemberPath, h.resolveModule]

end

theorem SameShape.sourceModuleKey (module : ModuleId) :
    catalog'.sourceModuleKey module = catalog.sourceModuleKey module := by
  have hfind : ∀ catalog : ModuleCatalog, catalog.sourceModuleKey module =
      (catalog.modules.map ModuleRecord.shape).findIdx?
        fun shape => shape.2.sourceModule == some module := by
    intro catalog
    rw [List.findIdx?_map]
    rfl
  rw [hfind, hfind, h.modules]

end Shape

variable {module : ModuleId}

theorem sourceModuleKey_lt {catalog : ModuleCatalog} {key : ModuleKey}
    (h : catalog.sourceModuleKey module = some key) : key < catalog.modules.length :=
  (List.findIdx?_eq_some_iff_getElem.mp h).1

/-! Exports are inserted where none was. -/

/-- The export that an entry gives a name. -/
def pickExport (node : ExportNode) (entry : ModuleKey × String × ModuleExport) :
    Option ModuleExport :=
  if entry.1 = node.1 ∧ entry.2.1 = node.2 then some entry.2.2 else none

theorem insertVacant_shape (state : ModuleCatalog × Bool)
    (entry : ModuleKey × String × ModuleExport) :
    SameShape state.1 (insertVacant state entry).1 := by
  unfold insertVacant
  cases hrecord : state.1.modules[entry.1]? with
  | none => exact .refl _
  | some record =>
    dsimp only
    cases record.exports.get entry.2.1 with
    | some old => exact .refl _
    | none =>
      refine ⟨rfl, ?_⟩
      obtain ⟨hlt, hget⟩ := List.getElem?_eq_some_iff.mp hrecord
      dsimp only
      rw [List.map_set, ← hget]
      apply List.ext_getElem?
      intro key
      rw [List.getElem?_set]
      split_ifs with heq hlt'
      · subst heq
        rw [List.getElem?_map, hrecord, ← hget]
        rfl
      · subst heq
        rw [List.length_map] at hlt'
        exact absurd hlt hlt'
      · rfl

variable {entry : ModuleKey × String × ModuleExport} {state : ModuleCatalog × Bool}

theorem exportEntry_insertVacant (hlt : entry.1 < state.1.modules.length) (node : ExportNode) :
    exportEntry (insertVacant state entry).1 node =
      (exportEntry state.1 node).or (pickExport node entry) := by
  have hrecord := List.getElem?_eq_getElem hlt
  unfold insertVacant
  rw [hrecord]
  dsimp only
  by_cases hnode : entry.1 = node.1 ∧ entry.2.1 = node.2
  · have hentry : exportEntry state.1 node = state.1.modules[entry.1].exports.get entry.2.1 := by
      rw [exportEntry, ← hnode.1, ← hnode.2, hrecord, Option.bind_some]
    have hpick : pickExport node entry = some entry.2.2 := if_pos hnode
    cases hold : state.1.modules[entry.1].exports.get entry.2.1 with
    | some old => rw [hentry, hold, Option.some_or]
    | none =>
      rw [hentry, hold, hpick, Option.none_or, exportEntry, ← hnode.1, ← hnode.2]
      dsimp only
      rw [List.getElem?_set_self hlt, Option.bind_some, Map.get_insert_self]
  · have hpick : pickExport node entry = none := if_neg hnode
    rw [hpick, Option.or_none]
    cases hold : state.1.modules[entry.1].exports.get entry.2.1 with
    | some old => rfl
    | none =>
      dsimp only
      unfold exportEntry
      by_cases hkey : entry.1 = node.1
      · have hname : node.2 ≠ entry.2.1 := fun h => hnode ⟨hkey, h.symm⟩
        dsimp only
        rw [← hkey, List.getElem?_set_self hlt, hrecord, Option.bind_some, Option.bind_some,
          Map.get_insert_ne _ hname]
      · dsimp only
        rw [List.getElem?_set_ne hkey]

theorem foldl_insertVacant_shape (entries : List (ModuleKey × String × ModuleExport))
    (state : ModuleCatalog × Bool) : SameShape state.1 (entries.foldl insertVacant state).1 := by
  induction entries generalizing state with
  | nil => exact .refl _
  | cons entry entries ih => exact (insertVacant_shape state entry).trans (ih _)

variable {entries : List (ModuleKey × String × ModuleExport)}

theorem exportEntry_foldl
    (hlt : ∀ entry ∈ entries, entry.1 < state.1.modules.length) (node : ExportNode) :
    exportEntry (entries.foldl insertVacant state).1 node =
      (exportEntry state.1 node).or (entries.findSome? (pickExport node)) := by
  induction entries generalizing state with
  | nil => simp
  | cons entry entries ih =>
    have hhead := hlt entry List.mem_cons_self
    have htail : ∀ entry' ∈ entries, entry'.1 < (insertVacant state entry).1.modules.length := by
      intro entry' hmem
      rw [(insertVacant_shape state entry).length]
      exact hlt entry' (List.mem_cons_of_mem _ hmem)
    rw [List.foldl_cons, ih htail, exportEntry_insertVacant hhead, Option.or_assoc]
    congr 1
    rw [List.findSome?_cons]
    cases pickExport node entry with
    | none => rw [Option.none_or]
    | some item => rw [Option.some_or]

theorem insertVacant_unchanged (h : (insertVacant state entry).2 = false) :
    insertVacant state entry = state := by
  unfold insertVacant at h ⊢
  cases hrecord : state.1.modules[entry.1]? with
  | none => rfl
  | some record =>
    rw [hrecord] at h
    dsimp only at h ⊢
    cases hold : record.exports.get entry.2.1 with
    | some old => rfl
    | none =>
      rw [hold] at h
      cases h

theorem foldl_unchanged (h : (entries.foldl insertVacant state).2 = false) :
    entries.foldl insertVacant state = state := by
  induction entries generalizing state with
  | nil => rfl
  | cons entry entries ih =>
    have hrest := ih h
    rw [List.foldl_cons] at h ⊢
    rw [hrest] at h
    rw [hrest, insertVacant_unchanged h]

/-- What a round makes of the catalog. -/
def roundCatalog (modules : ModuleIndex) (catalog : ModuleCatalog) : ModuleCatalog :=
  (applyReExportsToCatalog catalog (resolvePublicImportsForCatalog modules catalog).1
    (resolvePublicImportsForCatalog modules catalog).2).1

theorem closureRounds_eq (modules : ModuleIndex) (rounds : ℕ) (catalog : ModuleCatalog) :
    closureRounds modules rounds catalog = (roundCatalog modules)^[rounds] catalog := by
  induction rounds generalizing catalog with
  | zero => rfl
  | succ rounds ih =>
    rw [Function.iterate_succ_apply, closureRounds]
    cases hchanged : (applyReExportsToCatalog catalog
        (resolvePublicImportsForCatalog modules catalog).1
        (resolvePublicImportsForCatalog modules catalog).2).2 with
    | true =>
      dsimp only
      rw [if_pos hchanged]
      exact ih _
    | false =>
      have hsame : roundCatalog modules catalog = catalog :=
        congrArg Prod.fst (foldl_unchanged hchanged)
      have hfixed : (roundCatalog modules)^[rounds] catalog = catalog :=
        Function.iterate_fixed hsame rounds
      dsimp only
      rw [if_neg (by simp [hchanged])]
      change roundCatalog modules catalog = _
      rw [hsame, hfixed]

/-- The tables of a later round, which only gained public items. -/
structure Gained (start catalog : ModuleCatalog) : Prop where
  shape : SameShape start catalog
  kept : ∀ node item, exportEntry start node = some item → exportEntry catalog node = some item
  gained : ∀ node item, exportEntry catalog node = some item →
    exportEntry start node = some item ∨
      exportEntry start node = none ∧ item.visibility = .public
  named : WellNamed catalog

theorem moduleExports_get (catalog : ModuleCatalog) (target : ResolvedModuleTarget)
    (name : String) : (moduleExports catalog target).bind (·.get name) =
      exportEntry catalog (target.key, name) := by
  unfold moduleExports exportEntry
  cases catalog.modules[target.key]? with
  | none => rfl
  | some record => rfl

section Round
variable {start catalog : ModuleCatalog} (h : Gained start catalog)
include h

theorem Gained.seen {importer : ModuleId} {target : ResolvedModuleTarget} {name : String}
    {item : ModuleExport} (hitem : exportEntry catalog (target.key, name) = some item) :
    (item.visibility == .public || isImporter importer target) =
      seenBy start importer target name := by
  unfold seenBy
  rcases h.gained _ _ hitem with hold | ⟨hnone, hpublic⟩
  · rw [hold]
  · rw [hnone, hpublic]
    rfl

theorem Gained.resolveExportedItem (importer : ModuleId) (target : ResolvedModuleTarget)
    (name : String) : resolveExportedItem catalog target importer name =
      if seenBy start importer target name then exportEntry catalog (target.key, name)
      else none := by
  unfold Resolution.resolveExportedItem
  rw [moduleExports_get]
  cases hitem : exportEntry catalog (target.key, name) with
  | none => simp
  | some item =>
    rw [← h.seen hitem]
    dsimp only
    cases hpublic : item.visibility <;> cases isImporter importer target <;> simp

end Round

theorem moduleExportTarget_of_export (key : ModuleKey) (name : String) (item : ModuleExport) :
    moduleExportTargetForImport (importTargetForExport key name item) = some item.target := by
  unfold importTargetForExport
  cases item.target <;> rfl

/-- The target that an entry gives a name. -/
def pickTarget (node : ExportNode) (entry : ModuleKey × String × ModuleExport) :
    Option ModuleExportTarget :=
  (pickExport node entry).map (·.target)

/-- The target that an explicit import gives a name. -/
def explicitTarget (catalog : ModuleCatalog) (node : ExportNode) (resolution : ImportResolution) :
    Option ModuleExportTarget :=
  resolution.explicit?.bind fun resolved =>
    (explicitExport catalog resolved).bind (pickTarget node)

variable {modules : ModuleIndex} {decl : ImportDecl}

section Explicit
variable {start catalog : ModuleCatalog} (h : Gained start catalog)
include h

/-- What an import of one item gives a name. -/
theorem Gained.explicitItem (site : ImportSite) (node : ExportNode) (localName name : String)
    (target : ResolvedModuleTarget) :
    ((Resolution.resolveExportedItem catalog target site.module name).bind fun item =>
      explicitTarget catalog node (.explicit ⟨site.module, site.part,
        importTargetForExport target.key name item, localName, .public⟩)) =
      (if start.sourceModuleKey site.module = some node.1 ∧ localName = node.2 ∧
        seenBy start site.module target name then some (target.key, name) else none).bind
          (exportTarget catalog) := by
  rw [h.resolveExportedItem]
  by_cases hseen : seenBy start site.module target name
  · rw [if_pos hseen]
    have hpick : ∀ item, explicitTarget catalog node (.explicit ⟨site.module, site.part,
        importTargetForExport target.key name item, localName, .public⟩) =
        if start.sourceModuleKey site.module = some node.1 ∧ localName = node.2
          then some item.target else none := by
      intro item
      simp only [explicitTarget, ImportResolution.explicit?, Option.bind_some, explicitExport,
        moduleExportTarget_of_export, h.shape.sourceModuleKey, ne_eq, not_true_eq_false, if_false]
      cases start.sourceModuleKey site.module with
      | none => simp
      | some key =>
        simp only [Option.bind_some, Option.map_some, pickTarget, pickExport, Option.some.injEq]
        split_ifs <;> rfl
    simp only [hpick, hseen, and_true]
    split_ifs with hnode
    · rw [Option.bind_some, exportTarget]
      cases exportEntry catalog (target.key, name) <;> rfl
    · cases exportEntry catalog (target.key, name) <;> rfl
  · rw [if_neg hseen]
    simp [hseen]

/-- What the items of an import declaration give a name. -/
theorem Gained.explicitDecl {site : ImportSite} (hpublic : decl.visibility = .public)
    (node : ExportNode) :
    (resolveImportTree catalog site decl).findSome? (explicitTarget catalog node) =
      ((explicitItems start site.package decl).filterMap fun item =>
        if start.sourceModuleKey site.module = some node.1 ∧ item.1 = node.2 ∧
          seenBy start site.module item.2.1 item.2.2 then some (item.2.1.key, item.2.2)
        else none).findSome? (exportTarget catalog) := by
  rw [findSome?_filterMap]
  unfold resolveImportTree explicitItems
  rw [hpublic]
  cases decl.tree with
  | error => rfl
  | wildcard path span =>
    dsimp only
    cases Resolution.resolveModuleTarget catalog site.package path with
    | none => rfl
    | some target => simp [explicitTarget, ImportResolution.explicit?]
  | group path items =>
    dsimp only
    rw [h.shape.resolveModuleTarget]
    cases Resolution.resolveModuleTarget start site.package path with
    | none => rfl
    | some target =>
      dsimp only
      rw [Option.toList_some, List.flatMap_singleton, findSome?_filterMap, List.findSome?_map]
      apply findSome?_congr_mem
      intro item _
      have hitem := h.explicitItem site node (item.rename.getD item.name) item.name target
      rw [Function.comp_apply, ← hitem, resolveGroupItem, Option.bind_map]
      rfl
  | single path rename =>
    dsimp only
    unfold resolveSingleImport
    rw [h.shape.resolveModule, h.shape.splitModuleMemberPath]
    cases Resolution.resolveModule start site.package path with
    | resolved target =>
      simp [explicitTarget, ImportResolution.explicit?, explicitExport,
        moduleExportTargetForImport]
    | ambiguous targets => rfl
    | missing =>
      dsimp only
      cases Resolution.splitModuleMemberPath start site.package path with
      | none => rfl
      | some split =>
        obtain ⟨modulePath, member⟩ := split
        dsimp only
        rw [h.shape.resolveModuleTarget]
        cases Resolution.resolveModuleTarget start site.package modulePath with
        | none => rfl
        | some target =>
          have hitem := h.explicitItem site node (rename.getD member) member target
          dsimp only
          rw [Option.toList_some, List.map_singleton, List.findSome?_singleton, ← hitem]
          cases Resolution.resolveExportedItem catalog target site.module member with
          | none => rfl
          | some item => rw [Option.bind_some, List.findSome?_singleton]

/-- The target that a wildcard import gives a name. -/
def wildcardTarget (catalog : ModuleCatalog) (node : ExportNode) (resolution : ImportResolution) :
    Option ModuleExportTarget :=
  resolution.wildcard?.bind fun resolved =>
    (wildcardExports catalog resolved).findSome? (pickTarget node)

theorem Gained.mem_exportedNames {importer : ModuleId} {target : ResolvedModuleTarget}
    {name : String} : name ∈ (wildcardTargets catalog importer target).keys ↔
      ∃ item, exportEntry catalog (target.key, name) = some item ∧
        seenBy start importer target name := by
  rw [wildcardTargets, Map.mem_keys_ofList]
  have hentry : ∀ item, (name, item) ∈ ((moduleExports catalog target).getD ∅).toList ↔
      exportEntry catalog (target.key, name) = some item := by
    intro item
    rw [Map.mem_toList, ← moduleExports_get]
    cases moduleExports catalog target with
    | none => simp
    | some exports => rfl
  constructor
  · rintro ⟨found, hfound⟩
    obtain ⟨item, hitem, heq⟩ := List.mem_map.mp hfound
    obtain ⟨hmem, hseen⟩ := List.mem_filter.mp hitem
    obtain ⟨⟨key, item'⟩, hpair, rfl⟩ := List.mem_map.mp hmem
    have hkey : exportEntry catalog (target.key, key) = some item' := by
      rw [← moduleExports_get]
      have hget := Map.mem_toList.mp hpair
      cases hexports : moduleExports catalog target with
      | none =>
        rw [hexports] at hget
        cases hget
      | some exports =>
        rw [hexports] at hget
        exact hget
    have hname : key = name := (h.named _ _ hkey).symm.trans (Prod.mk.inj heq).1
    subst hname
    exact ⟨item', hkey, by rw [← h.seen hkey]; exact hseen⟩
  · rintro ⟨item, hitem, hseen⟩
    rw [← h.seen hitem] at hseen
    refine ⟨importTargetForExport target.key name item, List.mem_map.mpr ⟨item, ?_, ?_⟩⟩
    · exact List.mem_filter.mpr
        ⟨List.mem_map.mpr ⟨(name, item), (hentry item).mpr hitem, rfl⟩, hseen⟩
    · rw [h.named _ _ hitem]

/-- What a wildcard import gives a name. -/
theorem Gained.wildcardImport (site : ImportSite) (node : ExportNode)
    (target : ResolvedModuleTarget) (span : Span) :
    wildcardTarget catalog node
      (.wildcard (resolveWildcardImport catalog site .public target span)) =
      (if start.sourceModuleKey site.module = some node.1 ∧
        seenBy start site.module target node.2 then some (target.key, node.2) else none).bind
          (exportTarget catalog) := by
  simp only [wildcardTarget, ImportResolution.wildcard?, Option.bind_some, wildcardExports,
    resolveWildcardImport, ne_eq, not_true_eq_false, if_false, h.shape.sourceModuleKey]
  cases start.sourceModuleKey site.module with
  | none => simp
  | some key =>
    cases hrecord : catalog.modules[target.key]? with
    | none =>
      have hnone : exportTarget catalog (target.key, node.2) = none := by
        simp [exportTarget, exportEntry, hrecord]
      split_ifs <;> simp [hnone]
    | some record =>
      have hget : exportTarget catalog (target.key, node.2) =
          (record.exports.get node.2).map (·.target) := by
        simp [exportTarget, exportEntry, hrecord]
      dsimp only
      rw [List.findSome?_map]
      by_cases hkey : key = node.1
      · have hpick : (pickTarget node ∘ fun entry : String × ModuleExport =>
            (key, entry.1, (⟨entry.1, .public, entry.2.target⟩ : ModuleExport))) =
            fun entry => if entry.1 = node.2 then some entry.2.target else none := by
          funext entry
          simp only [Function.comp_apply, pickTarget, pickExport, hkey, true_and]
          split_ifs <;> rfl
        rw [hpick, Map.findSome?_toList record.exports
          (fun name => (wildcardTargets catalog site.module target).keys.contains name)]
        simp only [hkey, true_and]
        by_cases hseen : seenBy start site.module target node.2
        · rw [if_pos hseen, Option.bind_some, hget]
          split_ifs with hmem
          · rfl
          · cases hitem : record.exports.get node.2 with
            | none => rfl
            | some item =>
              have hentry : exportEntry catalog (target.key, node.2) = some item := by
                simp [exportEntry, hrecord, hitem]
              have hin := h.mem_exportedNames.mpr ⟨item, hentry, hseen⟩
              exact absurd (List.contains_iff_mem.mpr hin) hmem
        · rw [if_neg hseen, Option.bind_none]
          split_ifs with hmem
          · obtain ⟨_, _, hseen'⟩ := h.mem_exportedNames.mp (List.contains_iff_mem.mp hmem)
            exact absurd hseen' hseen
          · rfl
      · have hpick : (pickTarget node ∘ fun entry : String × ModuleExport =>
            (key, entry.1, (⟨entry.1, .public, entry.2.target⟩ : ModuleExport))) =
            fun _ => none := by
          funext entry
          simp [pickTarget, pickExport, hkey]
        rw [hpick]
        have hne : ¬ (some key = some node.1) := by simpa using hkey
        simp [hne]

/-- What the wildcard of an import declaration gives a name. -/
theorem Gained.wildcardDecl {site : ImportSite} (hpublic : decl.visibility = .public)
    (node : ExportNode) :
    (resolveImportTree catalog site decl).findSome? (wildcardTarget catalog node) =
      ((wildcardModules start site.package decl).filterMap fun target =>
        if start.sourceModuleKey site.module = some node.1 ∧
          seenBy start site.module target node.2 then some (target.key, node.2)
        else none).findSome? (exportTarget catalog) := by
  rw [findSome?_filterMap]
  unfold resolveImportTree wildcardModules
  rw [hpublic]
  cases decl.tree with
  | error => rfl
  | wildcard path span =>
    dsimp only
    rw [h.shape.resolveModuleTarget]
    cases Resolution.resolveModuleTarget start site.package path with
    | none => rfl
    | some target =>
      dsimp only
      rw [Option.toList_some, List.findSome?_singleton, List.findSome?_singleton,
        h.wildcardImport]
  | group path items =>
    dsimp only
    cases Resolution.resolveModuleTarget catalog site.package path with
    | none => rfl
    | some target =>
      dsimp only
      rw [findSome?_filterMap]
      apply List.findSome?_eq_none_iff.mpr
      intro item _
      unfold resolveGroupItem
      cases Resolution.resolveExportedItem catalog target site.module item.name <;> rfl
  | single path rename =>
    dsimp only
    apply List.findSome?_eq_none_iff.mpr
    intro resolution hresolution
    unfold resolveSingleImport at hresolution
    cases resolution with
    | explicit resolved => rfl
    | wildcard resolved =>
      split at hresolution
      · simp at hresolution
      · simp at hresolution
      · split at hresolution
        · simp at hresolution
        · split at hresolution
          · simp at hresolution
          · split at hresolution
            · simp at hresolution
            · simp at hresolution

omit h in
theorem publicImports_public {declared : ImportSite × ImportDecl}
    (hmem : declared ∈ publicImports modules) : declared.2.visibility = .public := by
  obtain ⟨part, _, hpart⟩ := List.mem_flatMap.mp hmem
  obtain ⟨decl, hdecl, rfl⟩ := List.mem_map.mp hpart
  exact eq_of_beq (List.mem_filter.mp hdecl).2

omit h in
theorem explicitExport_spec {resolved : ResolvedImport}
    (hentry : explicitExport catalog resolved = some entry) :
    entry.1 < catalog.modules.length ∧ entry.2.2.visibility = .public ∧
      entry.2.2.name = entry.2.1 := by
  unfold explicitExport at hentry
  split_ifs at hentry
  obtain ⟨key, hkey, hmap⟩ := Option.bind_eq_some_iff.mp hentry
  obtain ⟨target, _, rfl⟩ := Option.map_eq_some_iff.mp hmap
  exact ⟨sourceModuleKey_lt hkey, rfl, rfl⟩

omit h in
theorem wildcardExports_spec {resolved : ResolvedWildcardImport}
    (hentry : entry ∈ wildcardExports catalog resolved) :
    entry.1 < catalog.modules.length ∧ entry.2.2.visibility = .public ∧
      entry.2.2.name = entry.2.1 := by
  unfold wildcardExports at hentry
  split_ifs at hentry
  · cases hentry
  · cases hkey : catalog.sourceModuleKey resolved.from with
    | none => simp [hkey] at hentry
    | some key =>
      cases hrecord : catalog.modules[resolved.targetModule.key]? with
      | none => simp [hkey, hrecord] at hentry
      | some record =>
        rw [hkey, hrecord] at hentry
        obtain ⟨item, _, rfl⟩ := List.mem_map.mp hentry
        exact ⟨sourceModuleKey_lt hkey, rfl, rfl⟩

/-- The entries that a round inserts where none was. -/
def roundEntries (modules : ModuleIndex) (catalog : ModuleCatalog) :
    List (ModuleKey × String × ModuleExport) :=
  (resolvePublicImportsForCatalog modules catalog).1.filterMap (explicitExport catalog) ++
    (resolvePublicImportsForCatalog modules catalog).2.flatMap (wildcardExports catalog)

omit h in
theorem roundEntries_spec (hentry : entry ∈ roundEntries modules catalog) :
    entry.1 < catalog.modules.length ∧ entry.2.2.visibility = .public ∧
      entry.2.2.name = entry.2.1 := by
  rcases List.mem_append.mp hentry with hentry | hentry
  · obtain ⟨resolved, _, hresolved⟩ := List.mem_filterMap.mp hentry
    exact explicitExport_spec hresolved
  · obtain ⟨resolved, _, hresolved⟩ := List.mem_flatMap.mp hentry
    exact wildcardExports_spec hresolved

omit h in
theorem exportEntry_round (modules : ModuleIndex) (node : ExportNode) :
    exportEntry (roundCatalog modules catalog) node =
      (exportEntry catalog node).or ((roundEntries modules catalog).findSome?
        (pickExport node)) :=
  exportEntry_foldl (fun _ hentry => (roundEntries_spec hentry).1) node

theorem Gained.round (modules : ModuleIndex) : Gained start (roundCatalog modules catalog) := by
  have hgained : ∀ node item, exportEntry (roundCatalog modules catalog) node = some item →
      exportEntry catalog node = some item ∨
        exportEntry catalog node = none ∧ item.visibility = .public ∧ item.name = node.2 := by
    intro node item hitem
    rw [exportEntry_round] at hitem
    cases hold : exportEntry catalog node with
    | some old =>
      rw [hold, Option.some_or] at hitem
      exact .inl hitem
    | none =>
      rw [hold, Option.none_or] at hitem
      obtain ⟨entry, hentry, hpick⟩ := List.exists_of_findSome?_eq_some hitem
      obtain ⟨_, hpublic, hname⟩ := roundEntries_spec hentry
      unfold pickExport at hpick
      split_ifs at hpick with hnode
      cases hpick
      exact .inr ⟨rfl, hpublic, hname.trans hnode.2⟩
  have hkept : ∀ node item, exportEntry start node = some item →
      exportEntry (roundCatalog modules catalog) node = some item := by
    intro node item hitem
    rw [exportEntry_round, h.kept node item hitem, Option.some_or]
  constructor
  · exact h.shape.trans (foldl_insertVacant_shape (roundEntries modules catalog) (catalog, false))
  · exact hkept
  · intro node item hitem
    rcases hgained node item hitem with hold | ⟨hnone, hpublic, _⟩
    · exact h.gained node item hold
    · right
      refine ⟨?_, hpublic⟩
      cases hstart : exportEntry start node with
      | none => rfl
      | some old =>
        rw [h.kept node old hstart] at hnone
        cases hnone
  · intro node item hitem
    rcases hgained node item hitem with hold | ⟨_, _, hname⟩
    · exact h.named node item hold
    · exact hname

theorem Gained.roundTargets (modules : ModuleIndex) (node : ExportNode) :
    exportTarget (roundCatalog modules catalog) node =
      (reExportGraph modules start).round (exportTarget catalog) node := by
  rw [exportTarget, exportEntry_round, Option.map_or, Spread.round]
  congr 1
  rw [List.map_findSome?]
  change (roundEntries modules catalog).findSome? (pickTarget node) = _
  unfold roundEntries resolvePublicImportsForCatalog
  rw [List.findSome?_append]
  dsimp only
  congr 1
  · rw [findSome?_filterMap, findSome?_filterMap, findSome?_flatMap]
    change (publicImports modules).findSome? (fun declared =>
      (resolveImportTree catalog declared.1 declared.2).findSome? (explicitTarget catalog node)) = _
    unfold reExportGraph
    rw [findSome?_flatMap]
    apply findSome?_congr_mem
    intro declared hmem
    exact h.explicitDecl (publicImports_public hmem) node
  · rw [findSome?_flatMap, findSome?_filterMap, findSome?_flatMap]
    change (publicImports modules).findSome? (fun declared =>
      (resolveImportTree catalog declared.1 declared.2).findSome? (wildcardTarget catalog node)) = _
    unfold reExportGraph
    rw [findSome?_flatMap]
    apply findSome?_congr_mem
    intro declared hmem
    exact h.wildcardDecl (publicImports_public hmem) node

end Explicit

variable {start : ModuleCatalog}

theorem gained_rounds (hnamed : WellNamed start) (rounds : ℕ) :
    Gained start ((roundCatalog modules)^[rounds] start) ∧
      exportTarget ((roundCatalog modules)^[rounds] start) =
        (reExportGraph modules start).after rounds := by
  induction rounds with
  | zero =>
    refine ⟨⟨.refl start, fun _ _ hitem => hitem, fun _ _ hitem => .inl hitem, hnamed⟩, rfl⟩
  | succ rounds ih =>
    obtain ⟨hgained, htargets⟩ := ih
    rw [Function.iterate_succ_apply']
    refine ⟨hgained.round modules, ?_⟩
    funext node
    rw [hgained.roundTargets modules node, htargets]
    rfl

/-! The order of parts, imports and table entries. -/

/-- The same modules, parts, imports and exports, in any order. -/
structure Reordered (modules modules' : ModuleIndex) (start start' : ModuleCatalog) : Prop where
  infos : modules'.modules = modules.modules
  parts : ∃ parts, parts.Perm modules'.parts ∧
    List.Forall₂ (fun part part' : ModulePart => part'.module = part.module ∧
      part.imports.Perm part'.imports) modules.parts parts
  shape : SameShape start start'
  exports : ∀ node, exportEntry start' node = exportEntry start node

/-- The part of a public import stands for any of its module. -/
theorem mem_publicImports {package : Option ExternalPackageId} :
    (∃ declared ∈ publicImports modules, declared.1.module = module ∧
      declared.1.package = package ∧ declared.2 = decl) ↔
      ∃ part ∈ modules.parts, part.module = module ∧
        modules.modules[part.module]?.bind (·.overlay) = package ∧ decl ∈ part.imports ∧
          decl.visibility = .public := by
  constructor
  · rintro ⟨declared, hmem, rfl, rfl, rfl⟩
    obtain ⟨⟨part, index⟩, hpart, hin⟩ := List.mem_flatMap.mp hmem
    obtain ⟨decl, hdecl, rfl⟩ := List.mem_map.mp hin
    obtain ⟨hdecl, hpublic⟩ := List.mem_filter.mp hdecl
    exact ⟨part, (List.mem_zipIdx' hpart).2 ▸ List.getElem_mem _, rfl, rfl, hdecl,
      eq_of_beq hpublic⟩
  · rintro ⟨part, hpart, rfl, rfl, hdecl, hpublic⟩
    obtain ⟨index, hindex⟩ := List.mem_iff_getElem?.mp hpart
    refine ⟨(⟨part.module, index, modules.modules[part.module]?.bind (·.overlay)⟩, decl), ?_, rfl,
      rfl, rfl⟩
    apply List.mem_flatMap.mpr
    refine ⟨(part, index), List.mem_zipIdx_iff_getElem?.mpr hindex, ?_⟩
    apply List.mem_map.mpr
    exact ⟨decl, List.mem_filter.mpr ⟨hdecl, by simp [hpublic]⟩, rfl⟩

theorem Reordered.mem_publicImports {modules modules' : ModuleIndex} {start start' : ModuleCatalog}
    (h : Reordered modules modules' start start') {package : Option ExternalPackageId} :
    (∃ declared ∈ publicImports modules', declared.1.module = module ∧
      declared.1.package = package ∧ declared.2 = decl) ↔
      ∃ declared ∈ publicImports modules, declared.1.module = module ∧
        declared.1.package = package ∧ declared.2 = decl := by
  rw [Resolution.mem_publicImports, Resolution.mem_publicImports, h.infos]
  obtain ⟨parts, hperm, hparts⟩ := h.parts
  constructor
  · rintro ⟨part', hpart', hmodule, hpackage, hdecl, hpublic⟩
    obtain ⟨part, hpart, hsame, himports⟩ :=
      forall₂_mem_right hparts (hperm.mem_iff.mpr hpart')
    rw [hsame] at hmodule hpackage
    exact ⟨part, hpart, hmodule, hpackage, himports.mem_iff.mpr hdecl, hpublic⟩
  · rintro ⟨part, hpart, hmodule, hpackage, hdecl, hpublic⟩
    obtain ⟨part', hpart', hsame, himports⟩ := forall₂_mem_left hparts hpart
    rw [← hsame] at hmodule hpackage
    exact ⟨part', hperm.mem_iff.mp hpart', hmodule, hpackage, himports.mem_iff.mp hdecl, hpublic⟩

theorem Reordered.sameSources {modules modules' : ModuleIndex} {start start' : ModuleCatalog}
    (h : Reordered modules modules' start start') :
    Spread.SameSources (reExportGraph modules start) (reExportGraph modules' start') := by
  have hseen : seenBy start' = seenBy start := by
    funext importer target name
    rw [seenBy, h.exports]
    rfl
  have hitems : explicitItems start' = explicitItems start := by
    funext package decl
    simp only [explicitItems, h.shape.resolveModule, h.shape.splitModuleMemberPath,
      h.shape.resolveModuleTarget]
  have hwild : wildcardModules start' = wildcardModules start := by
    funext package decl
    simp only [wildcardModules, h.shape.resolveModuleTarget]
  have hmem : ∀ (f : ModuleId → Option ExternalPackageId → ImportDecl → List ExportNode) source,
      source ∈ ((publicImports modules').flatMap fun declared =>
        f declared.1.module declared.1.package declared.2) ↔
      source ∈ ((publicImports modules).flatMap fun declared =>
        f declared.1.module declared.1.package declared.2) := by
    intro f source
    simp only [List.mem_flatMap]
    constructor
    · rintro ⟨declared, hmem, hsource⟩
      obtain ⟨other, hother, hmodule, hpackage, hdecl⟩ :=
        h.mem_publicImports.mp ⟨declared, hmem, rfl, rfl, rfl⟩
      exact ⟨other, hother, by rw [hmodule, hpackage, hdecl]; exact hsource⟩
    · rintro ⟨declared, hmem, hsource⟩
      obtain ⟨other, hother, hmodule, hpackage, hdecl⟩ :=
        h.mem_publicImports.mpr ⟨declared, hmem, rfl, rfl, rfl⟩
      exact ⟨other, hother, by rw [hmodule, hpackage, hdecl]; exact hsource⟩
  constructor
  · intro node
    change exportTarget start' node = exportTarget start node
    rw [exportTarget, exportTarget, h.exports]
  · intro node source
    unfold reExportGraph
    rw [hseen, hitems]
    simp only [h.shape.sourceModuleKey]
    exact hmem (fun module package decl => (explicitItems start package decl).filterMap fun item =>
      if start.sourceModuleKey module = some node.1 ∧ item.1 = node.2 ∧
        seenBy start module item.2.1 item.2.2 then some (item.2.1.key, item.2.2) else none) source
  · intro node source
    unfold reExportGraph
    rw [hseen, hwild]
    simp only [h.shape.sourceModuleKey]
    exact hmem (fun module package decl =>
      (wildcardModules start package decl).filterMap fun target =>
        if start.sourceModuleKey module = some node.1 ∧ seenBy start module target node.2
          then some (target.key, node.2) else none) source

/-- The tables are closed under the public imports, and the order of these does not matter. -/
structure ReExportsClosed (modules : ModuleIndex) (start : ModuleCatalog) : Prop where
  closed : (reExportGraph modules start).Closed
    (exportTarget (materializeCatalogReExportClosure modules start))
  gained : Gained start (materializeCatalogReExportClosure modules start)
  order : (reExportGraph modules start).NoConflict → ∀ modules' start',
    Reordered modules modules' start start' → ∀ node,
      exportTarget (materializeCatalogReExportClosure modules' start') node =
        exportTarget (materializeCatalogReExportClosure modules start) node

/-- No name needs more steps than the rounds that are made. -/
def RoundsSuffice (modules : ModuleIndex) (start : ModuleCatalog) : Prop :=
  (reExportGraph modules start).ReachedWithin (modules.parts.length + 1)

/-- No wildcard import is nearer to an item than the explicit imports of the name, unless all
lead to one item. -/
def ExplicitFirst (modules : ModuleIndex) (start : ModuleCatalog) : Prop :=
  (reExportGraph modules start).PreferredFirst

theorem materialize_gained (modules : ModuleIndex) (hnamed : WellNamed start) :
    Gained start (materializeCatalogReExportClosure modules start) ∧
      exportTarget (materializeCatalogReExportClosure modules start) =
        (reExportGraph modules start).after (modules.parts.length + 1) := by
  rw [materializeCatalogReExportClosure, closureRounds_eq]
  exact gained_rounds hnamed (modules.parts.length + 1)

theorem reExportsClosed_of_suffice (hnamed : WellNamed start)
    (hrounds : RoundsSuffice modules start) (hfirst : ExplicitFirst modules start) :
    ReExportsClosed modules start := by
  obtain ⟨hgained, htargets⟩ := materialize_gained modules hnamed
  refine ⟨?_, hgained, ?_⟩
  · rw [htargets]
    exact Spread.closed_of_reachedWithin hrounds hfirst
  · intro hconflict modules' start' hreordered node
    have hnamed' : WellNamed start' := by
      intro node item hitem
      rw [hreordered.exports] at hitem
      exact hnamed node item hitem
    have hlength : modules'.parts.length = modules.parts.length := by
      obtain ⟨parts, hperm, hparts⟩ := hreordered.parts
      rw [← hperm.length_eq, hparts.length_eq]
    rw [htargets, (materialize_gained modules' hnamed').2, hlength,
      hreordered.sameSources.after_eq hrounds hfirst hconflict]

/-- The tables are closed where the rounds suffice and explicit imports come first. Where no two
re-exports conflict they are closed there only, and without enough rounds they never are. -/
theorem materialize_closed_iff {modules : ModuleIndex} {start : ModuleCatalog}
    (hnamed : WellNamed start) :
    (RoundsSuffice modules start → ExplicitFirst modules start →
      ReExportsClosed modules start) ∧
    (ReExportsClosed modules start → RoundsSuffice modules start) ∧
    ((reExportGraph modules start).NoConflict →
      (ReExportsClosed modules start ↔
        RoundsSuffice modules start ∧ ExplicitFirst modules start)) := by
  have hrounds : ReExportsClosed modules start → RoundsSuffice modules start := by
    intro h
    have hclosed := h.closed
    rw [(materialize_gained modules hnamed).2] at hclosed
    exact Spread.reachedWithin_iff.mpr hclosed.reached
  refine ⟨reExportsClosed_of_suffice hnamed, hrounds, fun hconflict => ⟨fun h => ?_, fun h => ?_⟩⟩
  · have hclosed := h.closed
    rw [(materialize_gained modules hnamed).2] at hclosed
    exact ⟨hrounds h, Spread.preferredFirst_of_closed hconflict hclosed⟩
  · exact reExportsClosed_of_suffice hnamed h.1 h.2

/-- A public import of items of a module, each under a name of its own. -/
def groupImport (path : ModulePath) (items : List (String × String)) : ImportDecl :=
  ⟨.public, .group path (items.map fun item => ⟨item.1, some item.2⟩)⟩

/-- A module of a project that declares some public items. -/
def declaring (module : ModuleId) (path : ModulePath) (names : List String) : ModuleRecord :=
  ⟨path, .projectSource module,
    Map.ofList (names.map fun name => (name, ⟨name, .public, .source module 0⟩))⟩

/-- Two modules that pass an item to and fro, under four more names. -/
def cycleModules : ModuleIndex where
  modules := [⟨["a"], none⟩, ⟨["b"], none⟩]
  parts := [⟨0, 0, [groupImport ["b"] [("y0", "x1"), ("y1", "x2")]]⟩,
    ⟨1, 1, [groupImport ["a"] [("x0", "y0"), ("x1", "y1")]]⟩]
  sources := by simp

def cycleCatalog : ModuleCatalog := ⟨∅, [declaring 0 ["a"] ["x0"], declaring 1 ["b"] []]⟩

/-- A module that imports all of `lib`, and by name an item that `r` imports from `other`. -/
def nearModules : ModuleIndex where
  modules := [⟨["m"], none⟩, ⟨["r"], none⟩, ⟨["lib"], none⟩, ⟨["other"], none⟩]
  parts := [⟨0, 0, [⟨.public, .wildcard ["lib"] ⟨0, 0, 0⟩⟩, groupImport ["r"] [("x", "x")]]⟩,
    ⟨1, 1, [groupImport ["other"] [("x", "x")]]⟩, ⟨2, 2, []⟩, ⟨3, 3, []⟩]
  sources := by simp

def nearCatalog : ModuleCatalog :=
  ⟨∅, [declaring 0 ["m"] [], declaring 1 ["r"] [], declaring 2 ["lib"] ["x"],
    declaring 3 ["other"] ["x"]]⟩

/-- A module that exports an item of `lib` under another name. -/
def renamedModules : ModuleIndex where
  modules := [⟨["m"], none⟩, ⟨["lib"], none⟩]
  parts := [⟨0, 0, [groupImport ["lib"] [("x", "y")]]⟩, ⟨1, 1, []⟩]
  sources := by simp

def renamedCatalog : ModuleCatalog := ⟨∅, [declaring 0 ["m"] [], declaring 1 ["lib"] ["x"]]⟩

theorem wellNamed_renamed : WellNamed renamedCatalog := by
  intro node item hitem
  obtain ⟨key, name⟩ := node
  match key with
  | 0 => cases hitem
  | 1 =>
    have hmem := Map.get_ofList_eq_some hitem
    simp only [List.map_cons, List.map_nil, List.mem_singleton, Prod.mk.injEq] at hmem
    rw [hmem.1, hmem.2]
  | key + 2 => cases hitem

theorem renamed_source {node source : ExportNode}
    (h : source ∈ (reExportGraph renamedModules renamedCatalog).preferred node) :
    source = (1, "x") := by
  obtain ⟨declared, himport, hsource⟩ := List.mem_flatMap.mp h
  obtain rfl : declared = (⟨0, 0, none⟩, groupImport ["lib"] [("x", "y")]) :=
    List.mem_singleton.mp himport
  obtain ⟨item, hitem, hsome⟩ := List.mem_filterMap.mp hsource
  obtain rfl : item = ("y", .source 1 1, "x") := List.mem_singleton.mp hitem
  split_ifs at hsome
  exact (Option.some.inj hsome).symm

theorem reExportsClosed_renamed : ReExportsClosed renamedModules renamedCatalog := by
  apply (materialize_closed_iff wellNamed_renamed).1
  · intro j node value hchain
    cases hchain with
    | own hown => exact ⟨0, by decide, value, .own hown⟩
    | @preferred k _ source _ hown hsource hchain =>
      obtain rfl := renamed_source hsource
      exact ⟨1, by decide, .source 1 0, .preferred hown hsource (.own rfl)⟩
    | other _ hsource _ =>
      obtain ⟨declared, himport, hsource⟩ := List.mem_flatMap.mp hsource
      obtain rfl : declared = (⟨0, 0, none⟩, groupImport ["lib"] [("x", "y")]) :=
        List.mem_singleton.mp himport
      cases hsource
  · rintro node j value _ k value' ⟨_, source, hsource, _⟩
    obtain ⟨declared, himport, hsource⟩ := List.mem_flatMap.mp hsource
    obtain rfl : declared = (⟨0, 0, none⟩, groupImport ["lib"] [("x", "y")]) :=
      List.mem_singleton.mp himport
    cases hsource

/-- The rounds end before the last name of the cycle, and a wildcard import hides the item that
the module imports by name. -/
theorem reExportsClosed_not : ¬ ReExportsClosed cycleModules cycleCatalog ∧
    ¬ ReExportsClosed nearModules nearCatalog := by
  constructor
  · intro h
    have hchain : (reExportGraph cycleModules cycleCatalog).Chain 4 (0, "x2") (.source 0 0) :=
      .preferred rfl (List.mem_singleton_self (1, "y1")) <|
      .preferred rfl (List.mem_singleton_self (0, "x1")) <|
      .preferred rfl (List.mem_singleton_self (1, "y0")) <|
      .preferred rfl (List.mem_singleton_self (0, "x0")) <| .own rfl
    obtain ⟨value, hvalue⟩ := (h.closed.reached (0, "x2")).mpr ⟨4, _, hchain⟩
    cases hvalue
  · intro h
    obtain ⟨source, hsource, value, hvalue, hnode⟩ := h.closed.preferred (0, "x") rfl (1, "x")
      (List.mem_singleton_self (1, "x")) (.source 3 0) rfl
    obtain rfl : source = (1, "x") := List.mem_singleton.mp hsource
    have hother : some (.source 3 0) = some value := hvalue
    have hlib : some (.source 2 0) = some value := hnode
    rw [← hother] at hlib
    cases hlib

end EtasFrontend.Resolution
